import AdventureLogic.Layout.Recompile
import AdventureLogic.Proofs.Program.Crossing

/-!
# Conditions in normal form are self-contained

Making conditions self-contained ends when none crosses, so then their regions
are nested. Dropping redundant gotos after that moves the ends of regions, but
it keeps their order: an end moves forward over dropped gotos only, or back to
the goto right before it.

Key definition: `Program.Moved`. Key theorems: `Program.selfContained_tidy`,
`Program.normalize_selfContained`.
-/

namespace AdventureLogic
namespace Program

section Redirections

variable {code : List Instruction}

/-- A condition that skips from `q` to `r` in what is left stood at position `i` before, and it
skipped to `s`. -/
structure Moved (code : List Instruction) (i s q r : Nat) : Prop where
  skips : Skips code i s
  kept : ∃ x, (judge none none code)[i]? = some (x, .keep) ∧ x.isGoto = false
  source : rank (judge none none code) i = q
  target : ∃ k j, SentTo (judge none none code) s k j ∧ rank (judge none none code) k = r
  address : (tidy (sentOf code) code)[r]?.map Instruction.address =
    (code[s]?.map Instruction.address).map (resolve (sentOf code))

theorem exists_moved (hc : Closed code) {q r : Nat} (h : Skips (tidy (sentOf code) code) q r) :
    ∃ i s, Moved code i s q r := by
  obtain ⟨a, clauses, t', hq, hr⟩ := h
  rw [tidy_eq_map, List.getElem?_map] at hq
  obtain ⟨x, hx, hredirect⟩ := Option.map_eq_some_iff.1 hq
  obtain ⟨t, rfl, rfl⟩ : ∃ t, x = .condition a clauses (some t) ∧ t' = resolve (sentOf code) t := by
    unfold redirect at hredirect
    cases x with
    | command _ c => cases hredirect
    | condition _ _ skip =>
      cases skip with
      | none => cases hredirect
      | some t =>
        cases hredirect
        exact ⟨t, rfl, rfl⟩
    | goto _ u => cases hredirect
  obtain ⟨i, hi, hrank⟩ := exists_rank hx
  have hget : code[i]? = some (.condition a clauses (some t)) := by
    rw [← map_fst_judge none none code, List.getElem?_map, hi]
    rfl
  obtain ⟨y, hy, hya⟩ := List.mem_map.1 (hc.target_mem _ (List.mem_of_getElem? hget) t rfl)
  obtain ⟨s, hs⟩ := List.mem_iff_getElem?.1 hy
  have hst : code[s]?.map Instruction.address = some t := by
    rw [hs, ← hya]
    rfl
  obtain ⟨k, j, hsent, hj⟩ := exists_sentTo hc.nodup hst
  have hk : (tidy (sentOf code) code)[rank (judge none none code) k]?.map Instruction.address =
      some (resolve (sentOf code) t) := by
    rw [hsent.getElem?_tidy, hj, ← address_redirect (sentOf code) j]
    rfl
  refine ⟨i, s, ⟨a, clauses, t, hget, hst⟩, ⟨_, hi, rfl⟩, hrank, ⟨k, j, hsent, ?_⟩, ?_⟩
  · exact position_unique (closed_tidy hc).nodup hk hr
  · rw [hr, hst]
    rfl

namespace Moved

variable {i s q r i' s' q' r' : Nat}

theorem lt (h : Moved code i s q r) (his : i < s) : q < r := by
  obtain ⟨x, hx, hgoto⟩ := h.kept
  obtain ⟨k, j, hsent, rfl⟩ := h.target
  rw [← h.source]
  rcases hsent.near with ⟨_, hrank⟩ | ⟨rfl, hj⟩
  · rw [hrank]
    exact rank_lt hx his
  · -- The condition is not the goto to which it is sent.
    refine rank_lt hx (Nat.lt_of_le_of_ne (Nat.le_of_lt_succ his) ?_)
    rintro rfl
    have hsame := hx.symm.trans hsent.kept
    cases hsame
    rw [hgoto] at hj
    cases hj

/-- Ends of regions keep their order. -/
theorem target_le (hn : (addresses (tidy (sentOf code) code)).Nodup) (h : Moved code i s q r)
    (h' : Moved code i' s' q' r') (hle : s' ≤ s) : r' ≤ r := by
  rcases Nat.eq_or_lt_of_le hle with rfl | hlt
  · -- One target is sent to one place.
    obtain ⟨a, clauses, t, _, ht⟩ := h.skips
    have hr := h.address
    have hr' := h'.address
    rw [ht] at hr hr'
    exact Nat.le_of_eq (position_unique hn hr' hr)
  · obtain ⟨k, j, hsent, rfl⟩ := h.target
    obtain ⟨k', j', hsent', rfl⟩ := h'.target
    calc rank (judge none none code) k'
        ≤ rank (judge none none code) s' := by
          rcases hsent'.near with ⟨_, hrank⟩ | ⟨rfl, _⟩
          · exact Nat.le_of_eq hrank
          · exact rank_mono (Nat.le_succ _)
      _ ≤ rank (judge none none code) k := by
          rcases hsent.near with ⟨_, hrank⟩ | ⟨rfl, _⟩
          · rw [hrank]
            exact rank_mono hle
          · exact rank_mono (Nat.le_of_lt_succ hlt)

/-- What lies in a region lay in it before. -/
theorem source_lt (h : Moved code i s q r) (h' : Moved code i' s' q' r') (hlt : q' < r) :
    i' < s := by
  obtain ⟨k, j, hsent, rfl⟩ := h.target
  rw [← h'.source] at hlt
  refine Nat.lt_of_not_le fun hle => ?_
  have hrank : rank (judge none none code) s ≤ rank (judge none none code) i' := rank_mono hle
  rcases hsent.near with ⟨_, hk⟩ | ⟨rfl, _⟩
  · omega
  · have hsucc : rank (judge none none code) k ≤ rank (judge none none code) (k + 1) :=
      rank_mono (Nat.le_succ k)
    omega

end Moved

/-- **Dropping redundant gotos keeps code self-contained.** -/
theorem selfContained_tidy (hc : Closed code) (h : SelfContained code) :
    SelfContained (tidy (sentOf code) code) where
  forward hskip := by
    obtain ⟨i, s, hmoved⟩ := exists_moved hc hskip
    exact hmoved.lt (h.forward hmoved.skips)
  nested := by
    intro q r q' r' hskip hskip' hlt hltr
    obtain ⟨i, s, hmoved⟩ := exists_moved hc hskip
    obtain ⟨i', s', hmoved'⟩ := exists_moved hc hskip'
    have hi : i < i' := by
      rw [← hmoved.source, ← hmoved'.source] at hlt
      exact Nat.lt_of_not_le fun hle => Nat.not_lt.2 (rank_mono hle) hlt
    exact hmoved.target_le (closed_tidy hc).nodup hmoved'
      (h.nested hmoved.skips hmoved'.skips hi (hmoved.source_lt hmoved' hltr))

end Redirections

theorem selfContained_dropRedundantGotos {p : Program} (hp : p.Sound) (h : SelfContained p.code) :
    SelfContained p.dropRedundantGotos.program.code := by
  rcases dropRedundantGotos_cases p with hcase | ⟨hcase, _⟩
  · rwa [hcase]
  · rw [hcase]
    exact selfContained_tidy hp.closed h

end Program

namespace Pass

/-- A pass that has been run to its end has nothing left to change. -/
theorem run_settle {pass : Pass} {name : String} {changes n : Nat} {p : Program}
    (h : (pass.settle name changes p).result = .ok n) :
    (pass.run (pass.settle name changes p).program).result = .ok false := by
  fun_induction settle pass name changes p with
  | case1 => cases h
  | case2 changes p q events hrun =>
    have hq : (pass.run p).program = p := program_of_unchanged (by rw [hrun])
    rw [hrun] at hq
    obtain rfl : q = p := hq
    show (pass.run q).result = .ok false
    rw [hrun]
  | case3 => cases h
  | case4 changes p q events hrun r hr ih => exact ih h

theorem toFixpoint_once (pass : Pass) (name : String) {p q : Program}
    (h : (pass.run p).result = .ok true) (hq : (pass.run p).program.relabel = .ok q)
    (h' : (pass.run q).result = .ok false) :
    (pass.toFixpoint name p).program = q ∧ (pass.toFixpoint name p).result = .ok 1 := by
  obtain ⟨hprogram, hresult⟩ := settle_of_changed h hq
  obtain ⟨hprogram', hresult'⟩ := settle_of_unchanged h'
  exact ⟨hprogram.trans hprogram', hresult.trans hresult'⟩

/-- A pass that finds something to change twice. -/
theorem toFixpoint_twice (pass : Pass) (name : String) {p q r : Program}
    (h : (pass.run p).result = .ok true) (hq : (pass.run p).program.relabel = .ok q)
    (h' : (pass.run q).result = .ok true) (hr : (pass.run q).program.relabel = .ok r)
    (h'' : (pass.run r).result = .ok false) :
    (pass.toFixpoint name p).program = r ∧ (pass.toFixpoint name p).result = .ok 2 := by
  obtain ⟨hprogram, hresult⟩ := settle_of_changed h hq
  obtain ⟨hprogram', hresult'⟩ := settle_of_changed h' hr
  obtain ⟨hprogram'', hresult''⟩ := settle_of_unchanged h''
  exact ⟨hprogram.trans (hprogram'.trans hprogram''), hresult.trans (hresult'.trans hresult'')⟩

/-- What every change keeps, with the labels computed anew after it, is kept until the pass comes to
its end. -/
theorem settle_induction {pass : Pass} {I : Program → Prop}
    (hstep : ∀ p q : Program, p.Sound → I p → (pass.run p).result = .ok true →
      (pass.run p).program.relabel = .ok q → I q)
    {name : String} {changes n : Nat} {p : Program} (hp : p.Sound) (hI : I p)
    (h : (pass.settle name changes p).result = .ok n) :
    I (pass.settle name changes p).program := by
  fun_induction settle pass name changes p with
  | case1 => cases h
  | case2 changes p q events hrun =>
    have hq : (pass.run p).program = p := program_of_unchanged (by rw [hrun])
    rw [hrun] at hq
    exact hq ▸ hI
  | case3 => cases h
  | case4 changes p q events hrun r hr ih =>
    have htrue : (pass.run p).result = .ok true := by rw [hrun]
    have haddressed := addressed_run hp htrue
    have hr' : (pass.run p).program.relabel = .ok r := by rw [hrun, hr]
    rw [hrun] at haddressed
    exact ih (Program.sound_relabel haddressed.nodup haddressed.used hr) (hstep p r hp hI htrue hr') h

/-- What every change keeps of the code is kept until the pass comes to its end. -/
theorem settle_invariant {pass : Pass} {I : List Instruction → Prop}
    (hstep : ∀ p : Program, p.Sound → I p.code → (pass.run p).result = .ok true →
      I (pass.run p).program.code)
    {name : String} {changes n : Nat} {p : Program} (hp : p.Sound) (hI : I p.code)
    (h : (pass.settle name changes p).result = .ok n) :
    I (pass.settle name changes p).program.code := by
  refine settle_induction (I := fun q => I q.code) (fun p q hp hI hrun hq => ?_) hp hI h
  rw [Program.code_relabel hq]
  exact hstep p hp hI hrun

end Pass

namespace Program

theorem normalize_of_ok {p : Program} {n₁ n₂ n₃ : Nat}
    (h₁ : (Pass.unreachable.toFixpoint Pass.unreachable.name p).result = .ok n₁)
    (h₂ : (Pass.selfContained.toFixpoint Pass.selfContained.name
      (Pass.unreachable.toFixpoint Pass.unreachable.name p).program).result = .ok n₂)
    (h₃ : (Pass.redundantGotos.toFixpoint Pass.redundantGotos.name
      (Pass.selfContained.toFixpoint Pass.selfContained.name
        (Pass.unreachable.toFixpoint Pass.unreachable.name p).program).program).result = .ok n₃) :
    (p.normalize true).result = .ok () ∧
      (p.normalize true).program = (Pass.redundantGotos.toFixpoint Pass.redundantGotos.name
        (Pass.selfContained.toFixpoint Pass.selfContained.name
          (Pass.unreachable.toFixpoint Pass.unreachable.name p).program).program).program := by
  simp only [normalize, if_true, Outcome.andThen, Outcome.after, h₁, h₂, h₃, and_self]

/-- In normal form, with all passes run, code is self-contained. -/
theorem selfContained_normalize {p : Program} (hp : p.Sound)
    (h : (p.normalize true).result = .ok ()) :
    SelfContained (p.normalize true).program.code := by
  unfold normalize at h ⊢
  obtain ⟨n₁, h₁, h, hp₁⟩ := Outcome.andThen_eq_ok h
  obtain ⟨n₂, h₂, h, hp₂⟩ := Outcome.andThen_eq_ok h
  obtain ⟨n₃, h₃, h, hp₃⟩ := Outcome.andThen_eq_ok h
  rw [hp₁, hp₂, hp₃]
  have hs₁ := (Pass.refined_settle hp h₁).2
  have hs₂ := (Pass.refined_settle hs₁ h₂).2
  have hnone := crossing?_of_unchanged (Pass.run_settle h₂)
  have hnested := selfContained_of_crossing? hs₂.closed.nodup hnone
  have hstep : ∀ q : Program, q.Sound → SelfContained q.code →
      (Pass.redundantGotos.run q).result = .ok true →
      SelfContained (Pass.redundantGotos.run q).program.code :=
    fun q hq hI _ => selfContained_dropRedundantGotos hq hI
  exact Pass.settle_invariant hstep hs₂ hnested h₃

/-- **In normal form no condition skips out of a region around it,** if conditions are made
self-contained. This holds of every program that is made from code, and of the code of every block
graph. All skip targets are in the code, at one position each. -/
theorem normalize_selfContained :
    (∀ (code : List Instruction) (labels : LabelTable) (p : Program),
      ofCode code labels = .ok p → (p.normalize true).result = .ok () →
        Closed (p.normalize true).program.code ∧
          SelfContained (p.normalize true).program.code) ∧
    ∀ (g : BlockGraph) (listing : Listing), (g.recompile true).result = .ok listing →
      Closed listing.code ∧ SelfContained listing.code := by
  have hcode : ∀ (code : List Instruction) (labels : LabelTable) (p : Program),
      ofCode code labels = .ok p → (p.normalize true).result = .ok () →
        Closed (p.normalize true).program.code ∧
          SelfContained (p.normalize true).program.code := by
    intro code labels p hp h
    have hsound := (sound_ofCode hp).1
    exact ⟨(refined_normalize hsound h).2.closed, selfContained_normalize hsound h⟩
  refine ⟨hcode, fun g listing h => ?_⟩
  obtain ⟨final, p, _, hp, hok, rfl⟩ := BlockGraph.recompile_eq_ok_iff.1 h
  exact hcode _ _ p hp hok

/-- A loop whose condition, inside the region of another one, skips back to the start. -/
def innerLoopGraph : BlockGraph where
  entries := #[
    .ofBlock { commands := [], exit := .branch [.test ⟨7, [5], false⟩] (some 1) (some 2) },
    .ofBlock { commands := [], exit := .branch [.test ⟨7, [6], true⟩] (some 2) (some 0) },
    .ofBlock { commands := [⟨12, [4]⟩], exit := .single none }]

theorem normalize_selfContained_innerLoopGraph :
    ∃ final p listing, innerLoopGraph.layOut.result = .ok final ∧
      ofCode final.output final.labels = .ok p ∧ p.crossing? = .ok (some ⟨1, 4, 1, 0⟩) ∧
      (p.normalize true).result = .ok () ∧ (innerLoopGraph.recompile true).result = .ok listing ∧
      listing.code = [.condition 0 [.test ⟨7, [5], false⟩] (some 2),
        .condition 1 [.test ⟨7, [6], true⟩] (some 5), .goto 3 2, .goto 5 0,
        .command 2 ⟨12, [4]⟩] ∧
      SelfContained (p.normalize true).program.code ∧ SelfContained listing.code := by
  have hrun : (innerLoopGraph.layOut.result >>= fun final =>
      ofCode final.output final.labels >>= fun p =>
      p.dropUnreachable.program.relabel >>= fun q =>
      q.selfContain.program.relabel.map fun r =>
        (p.crossing?, p.dropUnreachable.result, q.dropUnreachable.result, q.selfContain.result,
          r.selfContain.result, r.dropRedundantGotos.result, r.code)) =
      .ok (.ok (some ⟨1, 4, 1, 0⟩), .ok true, .ok false, .ok true, .ok false, .ok false,
        [.condition 0 [.test ⟨7, [5], false⟩] (some 2),
          .condition 1 [.test ⟨7, [6], true⟩] (some 5), .goto 3 2, .goto 5 0,
          .command 2 ⟨12, [4]⟩]) := by cbv
  obtain ⟨final, hfinal, hrun⟩ := Result.bind_eq_ok.1 hrun
  obtain ⟨p, hp, hrun⟩ := Result.bind_eq_ok.1 hrun
  obtain ⟨q, hq, hrun⟩ := Result.bind_eq_ok.1 hrun
  obtain ⟨r, hr, hrun⟩ := Result.map_eq_ok.1 hrun
  simp only [Prod.mk.injEq] at hrun
  obtain ⟨hcrossing, hdrop, hdropped, hdetour, hcontained, htidy, hcode⟩ := hrun
  obtain ⟨hq', hfirst⟩ := Pass.toFixpoint_once .unreachable Pass.unreachable.name hdrop hq hdropped
  obtain ⟨hr', hsecond⟩ :=
    Pass.toFixpoint_once .selfContained Pass.selfContained.name hdetour hr hcontained
  obtain ⟨hlast, hthird⟩ :
      (Pass.redundantGotos.toFixpoint Pass.redundantGotos.name r).program = r ∧
        (Pass.redundantGotos.toFixpoint Pass.redundantGotos.name r).result = .ok 0 :=
    Pass.settle_of_unchanged htidy
  subst hq' hr'
  obtain ⟨hok, hnormal⟩ := normalize_of_ok hfirst hsecond hthird
  have hrecompiled : (innerLoopGraph.recompile true).result =
      .ok (p.normalize true).program.listing :=
    BlockGraph.recompile_eq_ok_iff.2 ⟨final, p, hfinal, hp, hok, rfl⟩
  refine ⟨final, p, _, hfinal, hp, hcrossing, hok, hrecompiled, ?_,
    (normalize_selfContained.1 _ _ p hp hok).2, (normalize_selfContained.2 _ _ hrecompiled).2⟩
  rw [← hcode, ← hlast, ← hnormal]
  rfl

end Program
end AdventureLogic
