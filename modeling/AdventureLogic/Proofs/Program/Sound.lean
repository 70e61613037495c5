import AdventureLogic.Program.Normalize
import AdventureLogic.Proofs.AddressPool
import AdventureLogic.Proofs.Program.Groups

/-!
# Sound programs

A program is sound if its addresses are distinct, its jumps lead to its
instructions, the targets of its jumps have labels, and the pool knows its
addresses. A program made from code is sound, and computing the labels anew
restores what a pass may have broken.

Key definition: `Program.Sound`. Key theorems: `Program.sound_ofCode`,
`Program.sound_relabel`.
-/

namespace AdventureLogic
namespace Program

/-- What holds of a program between two passes. -/
structure Sound (p : Program) : Prop where
  closed : Closed p.code
  /-- An address has a label if some instruction jumps to it. -/
  labelled : ∀ a, p.labels.contains a ↔ some a ∈ p.code.map Instruction.target?
  /-- The addresses of the code are taken. -/
  used : ∀ a ∈ addresses p.code, p.pool.isUsed a

/-- Computing the labels anew makes a program sound, if its addresses are in order. -/
theorem sound_relabel {p q : Program} (hn : (addresses p.code).Nodup)
    (hu : ∀ a ∈ addresses p.code, p.pool.isUsed a) (h : p.relabel = .ok q) : q.Sound := by
  obtain ⟨groups, hgroups, rfl⟩ := relabel_eq_ok.1 h
  have htarget := exists_groupJumps_iff.1 ⟨groups, hgroups⟩
  exact ⟨⟨hn, htarget⟩, contains_labelsOf (grouped_groupJumps hgroups) p.labels _, hu⟩

/-- A program made from code is sound, and has that code. -/
theorem sound_ofCode {code : List Instruction} {labels : LabelTable} {p : Program}
    (h : ofCode code labels = .ok p) : p.Sound ∧ p.code = code := by
  obtain ⟨pool, hpool, h⟩ := Result.bind_eq_ok.1 h
  refine ⟨sound_relabel ?_ ?_ h, code_relabel h⟩
  · exact AddressPool.nodup_of_ofInstructions hpool
  · exact fun a ha => (AddressPool.isUsed_ofInstructions hpool a).2 ha

end Program
end AdventureLogic
