import AdventureLogic.Proofs.Program.NormalForm

/-!
# Normal form keeps stretches of code in one piece

A stretch of code without gotos is still there in normal form if control may
come to it and no jump leads into the middle of it. Control may come to a place
if the code starts there, if an instruction other than a goto stands before it,
or if a jump leads there (`Program.Visited`); what it may come to is not
unreachable. A detour is put in at the end of a region, where some condition
skips to, and so not in the middle of the stretch. Of what is redundant the
stretch has nothing, because it has no gotos.

Passes send conditions elsewhere, so a stretch is compared without skip targets.

Key definitions: `Instruction.unlinked`, `Program.Visited`, `Program.Visits`,
`Program.Uncut`. Key theorems: `Program.visits_dropUnreachable`,
`Program.infix_selfContain`, `Program.infix_dropRedundantGotos`,
`Program.infix_normalize`.
-/

namespace AdventureLogic

namespace Instruction

/-- An instruction without its skip target, if it is a condition. -/
def unlinked : Instruction → Instruction
  | .condition a clauses _ => .condition a clauses none
  | i => i

@[simp] theorem address_unlinked (i : Instruction) : i.unlinked.address = i.address := by
  cases i <;> rfl

@[simp] theorem isGoto_unlinked (i : Instruction) : i.unlinked.isGoto = i.isGoto := by
  cases i <;> rfl

theorem unlinked_retarget {i : Instruction} (hi : i.isGoto = false) (t : Address) :
    (i.retarget t).unlinked = i.unlinked := by
  cases i with
  | command a c => rfl
  | condition a clauses skip => rfl
  | goto a u => cases hi

end Instruction

namespace Program

theorem addresses_map_unlinked (code : List Instruction) :
    addresses (code.map Instruction.unlinked) = addresses code := by
  simp [addresses]

/-! ## Unreachable instructions -/

/-- The code from a place on to which control may come, if tests may go either way and commands
always go on. -/
inductive Visited (code : List Instruction) : List Instruction → Prop where
  | start : Visited code code
  | next {i : Instruction} {rest : List Instruction} (h : Visited code (i :: rest))
    (hi : i.isGoto = false) : Visited code rest
  | jump {i : Instruction} {rest : List Instruction} {t : Address} (h : Visited code (i :: rest))
    (ht : i.target? = some t) : Visited code (codeFrom code t)

/-- Control may come to a stretch of the code. -/
def Visits (code body : List Instruction) : Prop :=
  ∃ run rest, Visited code (run ++ rest) ∧ run.map Instruction.unlinked = body

variable {code body : List Instruction}

theorem Visited.suffix {s : List Instruction} (h : Visited code s) : s <:+ code := by
  induction h with
  | start => exact List.suffix_refl _
  | next _ _ ih => exact (List.suffix_cons _ _).trans ih
  | jump => exact List.dropWhile_suffix _

/-- Control goes on through a stretch without gotos. -/
theorem Visited.append {run rest : List Instruction} (hrun : ∀ i ∈ run, i.isGoto = false)
    (h : Visited code (run ++ rest)) : Visited code rest := by
  induction run with
  | nil => exact h
  | cons i run ih =>
    obtain ⟨hi, hrun⟩ := List.forall_mem_cons.1 hrun
    exact ih hrun (.next h hi)

theorem Visits.stands (h : Visits code body) : body <:+: code.map Instruction.unlinked := by
  obtain ⟨run, rest, hv, rfl⟩ := h
  exact ((List.prefix_append run rest).isInfix.trans hv.suffix.isInfix).map _

/-- A stretch without gotos that starts with what is kept is kept. -/
theorem reachable_append {labels : LabelTable} {run : List Instruction}
    (hrun : ∀ i ∈ run, i.isGoto = false) (rest : List Instruction) :
    reachable labels false (run ++ rest) = run ++ reachable labels false rest := by
  induction run with
  | nil => rfl
  | cons i run ih =>
    obtain ⟨hi, hrun⟩ := List.forall_mem_cons.1 hrun
    rw [List.cons_append, reachable_cons, if_pos (by simp), hi, ih hrun]
    rfl

/-- Control may come to the same places as before. -/
theorem visited_reachable {p : Program} (hp : p.Sound) {s : List Instruction}
    (h : Visited p.code s) :
    Visited (reachable p.labels false p.code) (reachable p.labels false s) := by
  induction h with
  | start => exact .start
  | next _ hi ih =>
    rw [reachable_cons, if_pos (by simp), hi] at ih
    exact ih.next hi
  | @jump i rest t hv ht ih =>
    have hlabel := (hp.labelled t).2 (List.mem_map.2 ⟨i, hv.suffix.subset List.mem_cons_self, ht⟩)
    rw [reachable_cons, if_pos (by simp)] at ih
    rw [← codeFrom_reachable hlabel false p.code]
    exact ih.jump ht

/-- **A stretch without gotos to which control may come is kept,** and control may still come
there. -/
theorem visits_dropUnreachable {p : Program} (hp : p.Sound) (hgoto : ∀ i ∈ body, i.isGoto = false)
    (h : Visits p.code body) : Visits p.dropUnreachable.program.code body := by
  obtain ⟨run, rest, hv, rfl⟩ := h
  have hrun : ∀ i ∈ run, i.isGoto = false := by simpa using hgoto
  have hkept := visited_reachable hp hv
  rw [reachable_append hrun] at hkept
  exact ⟨run, _, hkept, rfl⟩

/-! ## Detours -/

/-- No jump leads into the middle of the stretch. -/
def Uncut (code body : List Instruction) : Prop :=
  ∀ a ∈ addresses body.tail, some a ∉ code.map Instruction.target?

namespace Detour

variable {d : Detour}

theorem Valid.map_unlinked_after (h : d.Valid) : d.after.map Instruction.unlinked =
    d.above.map Instruction.unlinked ++
      (d.inserted.map Instruction.unlinked ++ d.below.map Instruction.unlinked) := by
  have hreroute : (d.above.map d.reroute).map Instruction.unlinked =
      d.above.map Instruction.unlinked := by
    rw [List.map_map]
    refine List.map_congr_left fun i hi => ?_
    by_cases hsource : i.address = d.source
    · obtain ⟨clauses, rfl⟩ := h.source_unique (List.mem_append_left _ hi) hsource
      exact congrArg _ (if_pos hsource)
    · exact congrArg _ (if_neg hsource)
  rw [after, List.map_append, List.map_append, hreroute]

/-- A detour is not put in in the middle of a stretch that no jump leads into. -/
theorem Valid.infix_after (h : d.Valid)
    (hbelow : ∀ i ∈ d.below.head?, some i.address ∈ d.before.map Instruction.target?)
    (huncut : Uncut d.before body) (hbody : body <:+: d.before.map Instruction.unlinked) :
    body <:+: d.after.map Instruction.unlinked := by
  rw [before, List.map_append] at hbody
  rw [h.map_unlinked_after]
  have habove : ∀ {l}, l <:+: d.above.map Instruction.unlinked → l <:+: _ := fun hl =>
    hl.trans (List.prefix_append (d.above.map Instruction.unlinked)
      (d.inserted.map Instruction.unlinked ++ d.below.map Instruction.unlinked)).isInfix
  have hunder : ∀ {l}, l <:+: d.below.map Instruction.unlinked → l <:+: _ := fun hl =>
    hl.trans ((List.suffix_append (d.inserted.map Instruction.unlinked) _).trans
      (List.suffix_append (d.above.map Instruction.unlinked) _)).isInfix
  rcases List.infix_append_iff.1 hbody with hin | hin | ⟨front, back, rfl, hfront, hback⟩
  · exact habove hin
  · exact hunder hin
  · cases front with
    | nil => exact hunder hback.isInfix
    | cons i front =>
      cases back with
      | nil => exact habove (by simpa using hfront.isInfix)
      | cons j back =>
        -- The stretch would go on across the place of the detour, and a jump leads there.
        obtain ⟨rest, hrest⟩ := hback
        obtain ⟨x, below, hx, rfl, _⟩ := List.map_eq_cons_iff.1 hrest.symm
        have htarget := hbelow x (by rw [hx]; rfl)
        refine absurd htarget (huncut x.address ?_)
        simp [addresses]

theorem Valid.uncut_after (h : d.Valid)
    (hbelow : ∀ i ∈ d.below.head?, some i.address ∈ d.before.map Instruction.target?)
    (huncut : Uncut d.before body) (hbody : body <:+: d.before.map Instruction.unlinked) :
    Uncut d.after body := by
  intro a ha htarget
  rcases h.target_after htarget with rfl | hold | ⟨next, hnext, rfl⟩
  · -- The address of the new goto is a new one.
    have hmem : d.via ∈ addresses (d.before.map Instruction.unlinked) :=
      (((List.tail_sublist body).trans hbody.sublist).map Instruction.address).subset ha
    rw [addresses_map_unlinked] at hmem
    refine h.fresh d.via ?_ hmem
    simp [inserted, addresses, Instruction.address]
  · exact huncut a ha hold
  · exact huncut _ ha (hbelow next hnext)

end Detour

/-- **A detour leaves a stretch in one piece** if no jump leads into its middle, and no jump leads
there afterwards. -/
theorem infix_selfContain {p : Program} (hp : p.Sound) (h : p.selfContain.result = .ok true)
    (hbody : body <:+: p.code.map Instruction.unlinked) (huncut : Uncut p.code body) :
    body <:+: p.selfContain.program.code.map Instruction.unlinked ∧
      Uncut p.selfContain.program.code body := by
  obtain ⟨d, hd, hbefore, hafter, _, c, _, hc, hlimit, _⟩ := exists_detour hp h
  have hbelow := target_below hbefore hc hlimit
  rw [hbefore] at hbody huncut
  rw [hafter]
  exact ⟨hd.infix_after hbelow huncut hbody, hd.uncut_after hbelow huncut hbody⟩

/-! ## Redundant gotos -/

theorem unlinked_redirect {i : Instruction} (hi : i.isGoto = false)
    (sent : OrderedMap Address Address) : (redirect sent i).unlinked = i.unlinked := by
  unfold redirect
  split
  · rfl
  · exact Instruction.unlinked_retarget hi _

/-- Only gotos are dropped. -/
theorem keep_of_not_goto {e : Instruction × Verdict} {previous : Option Address}
    {kept : Option Instruction} (he : e ∈ judge previous kept code) (hi : e.1.isGoto = false) :
    e.2 = .keep := by
  induction code generalizing previous kept with
  | nil => cases he
  | cons i rest ih =>
    rcases List.mem_cons.1 he with rfl | he
    · cases i with
      | command a c => rfl
      | condition a clauses skip => rfl
      | goto a t => cases hi
    · exact ih he

theorem infix_tidy (sent : OrderedMap Address Address) (hgoto : ∀ i ∈ body, i.isGoto = false)
    (hbody : body <:+: code.map Instruction.unlinked) :
    body <:+: (tidy sent code).map Instruction.unlinked := by
  obtain ⟨run, hrun, rfl⟩ := List.infix_map_iff.1 hbody
  rw [← map_fst_judge none none code] at hrun
  obtain ⟨judged, hjudged, rfl⟩ := List.infix_map_iff.1 hrun
  have hgoto' : ∀ e ∈ judged, e.1.isGoto = false := fun e he => by
    rw [← Instruction.isGoto_unlinked]
    exact hgoto _ (List.mem_map_of_mem (List.mem_map_of_mem he))
  have hkept : judged.filter (fun e => e.2 = .keep) = judged :=
    List.filter_eq_self.2 fun e he => by
      simpa using keep_of_not_goto (hjudged.subset he) (hgoto' e he)
  have htidy := ((hjudged.filter fun e => e.2 = .keep).map Prod.fst).map (redirect sent)
  rw [hkept] at htidy
  have hsame : ((judged.map Prod.fst).map (redirect sent)).map Instruction.unlinked =
      (judged.map Prod.fst).map Instruction.unlinked := by
    rw [List.map_map]
    refine List.map_congr_left fun i hi => ?_
    obtain ⟨e, he, rfl⟩ := List.mem_map.1 hi
    exact unlinked_redirect (hgoto' e he) sent
  rw [← hsame, tidy_eq_map]
  exact htidy.map _

/-- **A stretch without gotos is kept when redundant gotos are dropped.** -/
theorem infix_dropRedundantGotos {p : Program} (hgoto : ∀ i ∈ body, i.isGoto = false)
    (hbody : body <:+: p.code.map Instruction.unlinked) :
    body <:+: p.dropRedundantGotos.program.code.map Instruction.unlinked := by
  rcases dropRedundantGotos_cases p with h | ⟨h, _⟩
  · rwa [h]
  · rw [h]
    exact infix_tidy _ hgoto hbody

/-! ## All passes -/

/-- **In normal form a stretch without gotos stands in one piece** if control may come to it and no
jump leads into its middle. -/
theorem infix_normalize {p : Program} {selfContained : Bool} (hp : p.Sound)
    (hgoto : ∀ i ∈ body, i.isGoto = false) (hvisits : Visits p.code body)
    (huncut : Uncut p.code body) (h : (p.normalize selfContained).result = .ok ()) :
    body <:+: (p.normalize selfContained).program.code.map Instruction.unlinked := by
  have hdrop : Pass.unreachable.Keeps fun code => Visits code body ∧ Uncut code body := by
    rintro q hq ⟨hv, hu⟩ _
    refine ⟨visits_dropUnreachable hq hgoto hv, fun a ha htarget => hu a ha ?_⟩
    exact ((reachable_sublist q.labels false q.code).map _).subset htarget
  have hdetour : Pass.selfContained.Keeps fun code =>
      body <:+: code.map Instruction.unlinked ∧ Uncut code body :=
    fun q hq hI hrun => infix_selfContain hq hrun hI.1 hI.2
  have htidy : Pass.redundantGotos.Keeps fun code => body <:+: code.map Instruction.unlinked :=
    fun q _ hI _ => infix_dropRedundantGotos hgoto hI
  exact normalize_staged hdrop hdetour htidy (fun _ hI => ⟨hI.1.stands, hI.2⟩) (fun _ hJ => hJ.1) hp
    ⟨hvisits, huncut⟩ h

end Program
end AdventureLogic
