import AdventureLogic.Proofs.Layout.Recompile
import AdventureLogic.Proofs.Program.Idempotence
import AdventureLogic.Proofs.Program.Labels

/-!
# The labels of a layout

A layout gives a label to the place where a named block lands when it puts out
the first jump to it, with the name of the block. A block lands in one place
only, so labels have different names if blocks do. The labels of a layout are
not those of its code, because a jump to a block without a name gets none; what
is computed from them anew is, and stays so in normal form.

Key definitions: `BlockGraph.NamesDistinct`, `Layout.Named`. Key theorems:
`Plan.labels_step`, `Plan.named_run`, `Program.labels_match_code`.
-/

namespace AdventureLogic

namespace BlockGraph

/-- No two blocks have the same name. -/
def NamesDistinct (g : BlockGraph) : Prop :=
  (g.entries.toList.filterMap fun e => e.block.name).Nodup

instance (g : BlockGraph) : Decidable g.NamesDistinct :=
  inferInstanceAs (Decidable (List.Nodup _))

theorem NamesDistinct.block_unique {g : BlockGraph} (h : g.NamesDistinct) {m n : BlockId}
    {name : String} (hm : (g.block? m).bind Block.name = some name)
    (hn : (g.block? n).bind Block.name = some name) : m = n := by
  have hentry : ∀ {k}, (g.block? k).bind Block.name = some name →
      ∃ hk : k < g.entries.toList.length, g.entries.toList[k].block.name = some name := by
    intro k hk
    obtain ⟨b, hb, hname⟩ := Option.bind_eq_some_iff.1 hk
    obtain ⟨e, he, rfl⟩ := Option.map_eq_some_iff.1 hb
    obtain ⟨hlt, rfl⟩ := Array.getElem?_eq_some_iff.1 he
    exact ⟨hlt, hname⟩
  obtain ⟨hm, hmname⟩ := hentry hm
  obtain ⟨hn, hnname⟩ := hentry hn
  have hpairs := List.pairwise_iff_getElem.1 (List.pairwise_filterMap.1 h)
  rcases Nat.lt_trichotomy m n with hlt | heq | hlt
  · exact absurd rfl (hpairs m n hm hn hlt name hmname name hnname)
  · exact heq
  · exact absurd rfl (hpairs n m hn hm hlt name hnname name hmname)

end BlockGraph

namespace Layout

/-- Every label has the name of a block that lands there. -/
def Named (plan : Plan) (labels : LabelTable) : Prop :=
  ∀ a l, labels.get? a = some l →
    ∃ n, plan.entry n = .ok a ∧ (plan.graph.block? n).bind Block.name = some l.name

namespace Plan

variable {plan : Plan} {s t : State}

theorem named_refer {labels : LabelTable} (h : Named plan labels) {target : Address} {n : BlockId}
    (hn : plan.entry n = .ok target) (source : Address) :
    Named plan (plan.refer labels target source n) := by
  intro a l hl
  unfold refer at hl
  split at hl
  · -- one more reference, under the old name
    rw [OrderedMap.get?_modify] at hl
    split at hl
    · obtain ⟨k, hk, rfl⟩ := Option.map_eq_some_iff.1 hl
      exact h a k hk
    · exact h a l hl
  · split at hl
    · rename_i name hname
      rw [OrderedMap.get?_insertIfNew] at hl
      split at hl
      · rename_i hnew
        cases hl
        exact ⟨n, hnew.1 ▸ hn, hname⟩
      · exact h a l hl
    · exact h a l hl

theorem labels_jumpTo {n : BlockId} (h : (plan.jumpTo s n).result = .ok t) :
    ∃ target source, plan.entry n = .ok target ∧
      t.labels = plan.refer s.labels target source n := by
  obtain ⟨target, htarget, h⟩ := Logged.result_bind_eq_ok.1 h
  obtain ⟨⟨a, pool⟩, _, h⟩ := Logged.result_bind_eq_ok.1 h
  obtain ⟨_, _, h⟩ := Logged.result_bind_eq_ok.1 h
  cases h
  exact ⟨target, a, htarget, rfl⟩

theorem labels_leave {n : BlockId} (h : (plan.leave s n).result = .ok t) : t.labels = s.labels := by
  unfold leave at h
  split at h
  · cases h
    rfl
  · obtain ⟨⟨a, pool⟩, _, h⟩ := Logged.result_bind_eq_ok.1 h
    obtain ⟨_, _, h⟩ := Logged.result_bind_eq_ok.1 h
    cases h
    rfl

/-- What a step does to the labels: nothing, or it notes a jump to where a block lands. -/
theorem labels_step {task : Task} (h : (plan.step s task).result = .ok t) :
    t.labels = s.labels ∨ ∃ target source n, plan.entry n = .ok target ∧
      t.labels = plan.refer s.labels target source n := by
  rcases stepped_of_step h with ⟨_, _, rfl⟩ | ⟨_, h⟩ | ⟨f, _, _, _, h⟩
  · exact .inl rfl
  · obtain ⟨target, source, hrefer⟩ := labels_jumpTo h
    exact .inr ⟨target, source, task.block, hrefer⟩
  · unfold lay at h
    dsimp only at h
    split at h
    · cases h
      exact .inl rfl
    · have hlabels := labels_leave h
      exact .inl hlabels
    · rename_i clauses a yes skip merge _
      obtain ⟨target, htarget, h⟩ := Logged.result_bind_eq_ok.1 h
      cases h
      exact .inr ⟨target, a, skip, htarget, rfl⟩

theorem named_step {task : Task} (h : (plan.step s task).result = .ok t)
    (hs : Named plan s.labels) : Named plan t.labels := by
  rcases labels_step h with heq | ⟨target, source, n, hn, heq⟩
  · exact heq ▸ hs
  · exact heq ▸ named_refer hs hn source

/-- **Labels have the names of the blocks that land at them.** -/
theorem named_run (h : (plan.run s).result = .ok t) (hs : Named plan s.labels) :
    Named plan t.labels := by
  fun_induction run plan s with
  | case1 s hw =>
    cases h
    exact hs
  | case2 => cases h
  | case3 s task rest hw u events hu final ih =>
    have hstep : (plan.next s task rest).result = .ok u := by rw [hu]
    exact ih h (named_step hstep hs)

end Plan

/-- A block lands in one place only, so distinct names of blocks are distinct names of labels. -/
theorem Named.namesDistinct {plan : Plan} {labels : LabelTable} (h : Named plan labels)
    (hg : plan.graph.NamesDistinct) : labels.NamesDistinct := by
  rw [LabelTable.namesDistinct_iff]
  intro a b l l' hl hl' hname
  obtain ⟨m, hm, hmname⟩ := h a l hl
  obtain ⟨n, hn, hnname⟩ := h b l' hl'
  obtain rfl := hg.block_unique hmname (hname ▸ hnname)
  exact Except.ok.inj (hm.symm.trans hn)

end Layout

theorem BlockGraph.namesDistinct_layOut {g : BlockGraph} (hg : g.NamesDistinct)
    {final : Layout.State} (h : g.layOut.result = .ok final) : final.labels.NamesDistinct := by
  obtain ⟨plan, pool, rfl, _, hrun⟩ := exists_plan h
  have hstart : Layout.Named plan (plan.start pool).labels := fun a l hl => by
    have hnone : (∅ : LabelTable).get? a = some l := hl
    rw [OrderedMap.get?_empty_map] at hnone
    cases hnone
  exact (Layout.Plan.named_run hrun hstart).namesDistinct hg

namespace Program

/-- **The labels always match the code.** Whatever passes have been run to their ends on a program
that was made from code, and in the code of every block graph, the labels are those of the targets
of jumps, in code order, each with all the instructions that jump to it. If the names that the
program was given are distinct, or those of the blocks, then so are the names of the labels. -/
theorem labels_match_code :
    (∀ (code : List Instruction) (labels : LabelTable) (p q : Program),
      ofCode code labels = .ok p → p.Evolves q →
        q.listing.Labelled ∧ (labels.NamesDistinct → q.labels.NamesDistinct)) ∧
    ∀ (g : BlockGraph) (selfContained : Bool) (listing : Listing),
      (g.recompile selfContained).result = .ok listing →
        listing.Labelled ∧ (g.NamesDistinct → listing.labels.NamesDistinct) := by
  have hcode : ∀ (code : List Instruction) (labels : LabelTable) (p q : Program),
      ofCode code labels = .ok p → p.Evolves q →
        q.listing.Labelled ∧ (labels.NamesDistinct → q.labels.NamesDistinct) := by
    intro code labels p q hp hq
    have hsound := (sound_ofCode hp).1
    obtain ⟨hlabelled, hdistinct⟩ := labelled_ofCode hp
    exact ⟨hq.labelled hsound hlabelled, fun h => hq.namesDistinct hsound (hdistinct h)⟩
  refine ⟨hcode, fun g selfContained listing h => ?_⟩
  obtain ⟨final, p, hfinal, hp, hok, rfl⟩ := BlockGraph.recompile_eq_ok_iff.1 h
  obtain ⟨hlabelled, hdistinct⟩ := hcode _ _ p _ hp (.normalize selfContained .refl hok)
  exact ⟨hlabelled, fun hg => hdistinct (BlockGraph.namesDistinct_layOut hg hfinal)⟩

/-- Code in which a goto repeats the one before it and has a label of its own. -/
def repeatedGoto : List Instruction :=
  [.condition 0 [.test ⟨7, [5], false⟩] (some 3), .goto 1 5, .goto 3 5, .command 4 ⟨12, [4]⟩,
    .command 5 ⟨12, [5]⟩, .goto 6 0]

/-- Names for two of its labels, one of which looks like that of a numbered label. -/
def repeatedNames : LabelTable :=
  .ofList [(3, ⟨3, "Label1", []⟩), (0, ⟨0, "top", []⟩)]

/-- A loop with names for its first block and for what follows it. -/
def namedLoop : BlockGraph where
  entries := #[
    .ofBlock { name := some "top", commands := []
               exit := .branch [.test ⟨7, [5], false⟩] (some 1) (some 2) },
    .ofBlock { commands := [⟨12, [1]⟩], exit := .single (some 0) },
    .ofBlock { name := some "rest", commands := [⟨12, [2]⟩], exit := .single none }]

theorem labels_match_code_repeatedGoto :
    (∃ p q, ofCode repeatedGoto repeatedNames = .ok p ∧ p.Evolves q ∧
      q.labels.values.map Label.name = ["top", "Label1", "Label2"] ∧
      repeatedNames.NamesDistinct ∧ q.listing.Labelled ∧ q.labels.NamesDistinct) ∧
    ∃ listing, (namedLoop.recompile true).result = .ok listing ∧ namedLoop.NamesDistinct ∧
      listing.labels.values.map Label.name = ["top", "rest"] ∧ listing.Labelled ∧
      listing.labels.NamesDistinct := by
  constructor
  · have hrun : (ofCode repeatedGoto repeatedNames >>= fun p =>
        p.dropRedundantGotos.program.relabel.map fun q =>
          (p.dropRedundantGotos.result, q.dropRedundantGotos.result,
            q.labels.values.map Label.name)) =
        .ok (.ok true, .ok false, ["top", "Label1", "Label2"]) := by cbv
    have hnames : repeatedNames.NamesDistinct := by
      have heq : repeatedNames.values.map Label.name = ["Label1", "top"] := by cbv
      rw [LabelTable.NamesDistinct, heq]
      decide
    obtain ⟨p, hp, hrun⟩ := Result.bind_eq_ok.1 hrun
    obtain ⟨q, hq, hrun⟩ := Result.map_eq_ok.1 hrun
    simp only [Prod.mk.injEq] at hrun
    obtain ⟨hchanged, hsettled, hlabels⟩ := hrun
    obtain ⟨rfl, hok⟩ :=
      Pass.toFixpoint_once .redundantGotos Pass.redundantGotos.name hchanged hq hsettled
    have hevolves := Evolves.refl.toFixpoint .redundantGotos Pass.redundantGotos.name hok
    obtain ⟨hmatch, hdistinct⟩ := labels_match_code.1 _ _ p _ hp hevolves
    exact ⟨p, _, hp, hevolves, hlabels, hnames, hmatch, hdistinct hnames⟩
  · have hrun : (namedLoop.layOut.result >>= fun final =>
        (ofCode final.output final.labels).map fun p =>
          (p.dropUnreachable.result, p.selfContain.result, p.dropRedundantGotos.result,
            p.labels.values.map Label.name)) =
        .ok (.ok false, .ok false, .ok false, ["top", "rest"]) := by cbv
    have hnames : namedLoop.NamesDistinct := by decide
    obtain ⟨final, hfinal, hrun⟩ := Result.bind_eq_ok.1 hrun
    obtain ⟨p, hp, hrun⟩ := Result.map_eq_ok.1 hrun
    simp only [Prod.mk.injEq] at hrun
    obtain ⟨hfirst, hsecond, hthird, hlabels⟩ := hrun
    have hfixed : ∀ pass : Pass, (pass.run p).result = .ok false := by
      intro pass
      cases pass with
      | unreachable => exact hfirst
      | selfContained => exact hsecond
      | redundantGotos => exact hthird
    obtain ⟨hok, hnormal⟩ : (p.normalize true).result = .ok () ∧ (p.normalize true).program = p :=
      normalize_of_unchanged fun pass _ => hfixed pass
    have hrecompiled : (namedLoop.recompile true).result =
        .ok (p.normalize true).program.listing :=
      BlockGraph.recompile_eq_ok_iff.2 ⟨final, p, hfinal, hp, hok, rfl⟩
    obtain ⟨hmatch, hdistinct⟩ := labels_match_code.2 _ _ _ hrecompiled
    refine ⟨_, hrecompiled, hnames, ?_, hmatch, hdistinct hnames⟩
    rw [← hlabels, hnormal]
    rfl

end Program
end AdventureLogic
