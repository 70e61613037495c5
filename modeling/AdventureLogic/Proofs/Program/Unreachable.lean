import AdventureLogic.Proofs.Program.Sound

/-!
# Dropping unreachable instructions changes no run

An instruction is dropped if it stands right after a goto and has no label. No
jump leads to it, because targets have labels, and control does not run into it
either. So control never stands on a dropped instruction, and the code from
where it stands is what is left of the code from there.

Key definition: `Program.reachable`. Key theorem:
`Program.equivalent_dropUnreachable`.
-/

namespace AdventureLogic
namespace Program

/-- The instructions that are kept. -/
def reachable (labels : LabelTable) (afterGoto : Bool) (code : List Instruction) :
    List Instruction :=
  ((markReachable labels afterGoto code).filter (·.2)).map Prod.fst

theorem code_dropUnreachable (p : Program) :
    p.dropUnreachable.program.code = reachable p.labels false p.code := rfl

theorem reachable_cons (labels : LabelTable) (afterGoto : Bool) (i : Instruction)
    (rest : List Instruction) :
    reachable labels afterGoto (i :: rest) =
      if !afterGoto || labels.contains i.address then i :: reachable labels i.isGoto rest
      else reachable labels i.isGoto rest := by
  rw [reachable, markReachable, List.filter_cons]
  split
  · rfl
  · rfl

theorem reachable_sublist (labels : LabelTable) :
    ∀ (afterGoto : Bool) (code : List Instruction),
      (reachable labels afterGoto code).Sublist code
  | _, [] => .slnil
  | afterGoto, i :: rest => by
    rw [reachable_cons]
    split
    · exact (reachable_sublist labels i.isGoto rest).cons_cons i
    · exact (reachable_sublist labels i.isGoto rest).cons i

/-- A label leads to the same instruction as before, with what is left of the code after it. -/
theorem codeFrom_reachable {labels : LabelTable} {a : Address} (ha : labels.contains a = true) :
    ∀ (afterGoto : Bool) (code : List Instruction),
      codeFrom (reachable labels afterGoto code) a = reachable labels false (codeFrom code a)
  | _, [] => rfl
  | afterGoto, i :: rest => by
    have ih := codeFrom_reachable ha i.isGoto rest
    rw [reachable_cons]
    by_cases hi : i.address = a
    · subst hi
      rw [if_pos (by simp [ha]), codeFrom_cons_self, codeFrom_cons_self, reachable_cons,
        if_pos (by simp)]
    · rw [codeFrom_cons_of_ne hi, ← ih]
      split
      · rw [codeFrom_cons_of_ne hi]
      · rfl

/-- **Dropping unreachable instructions changes no run.** -/
theorem equivalent_dropUnreachable {p : Program} (hp : p.Sound) :
    (Machine.ofCode p.code).Equivalent (Machine.ofCode p.dropUnreachable.program.code) := by
  rw [code_dropUnreachable]
  refine Machine.equivalent_of_matched
    (fun _ s s' => s <:+ p.code ∧ s' = reachable p.labels false s) (k := 0)
    ⟨List.suffix_refl _, rfl⟩ ?_
  rintro k s _ ⟨hs, rfl⟩
  refine .both ?_
  cases s with
  | nil => exact .halt
  | cons i rest =>
    have hrest : rest <:+ p.code := (List.suffix_cons i rest).trans hs
    have hmem : i ∈ p.code := hs.subset List.mem_cons_self
    have hjump : ∀ t, i.target? = some t → ∃ _ : Nat, codeFrom p.code t <:+ p.code ∧
        codeFrom (reachable p.labels false p.code) t =
          reachable p.labels false (codeFrom p.code t) := by
      intro t ht
      have hlabel := (hp.labelled t).2 (List.mem_map.2 ⟨i, hmem, ht⟩)
      exact ⟨0, List.dropWhile_suffix _, codeFrom_reachable hlabel _ _⟩
    rw [reachable_cons, if_pos (by simp)]
    refine Machine.related_instruction i (fun hf => ⟨0, hrest, ?_⟩) hjump ⟨0, List.nil_suffix, rfl⟩
    rw [Instruction.isGoto_of_fallsThrough hf]

end Program
end AdventureLogic
