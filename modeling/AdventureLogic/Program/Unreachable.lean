import AdventureLogic.Program.Basic

/-!
# Dropping unreachable instructions

An instruction right after a goto runs only if something jumps to it, so it is
dropped unless it has a label. What counts is the instruction before it in the
program as it was, dropped or not.
-/

namespace AdventureLogic
namespace Program

/-- Says of each instruction whether it is kept. -/
def markReachable (labels : LabelTable) (afterGoto : Bool) :
    List Instruction → List (Instruction × Bool)
  | [] => []
  | i :: rest =>
    (i, !afterGoto || labels.contains i.address) :: markReachable labels i.isGoto rest

theorem length_markReachable (labels : LabelTable) :
    ∀ (afterGoto : Bool) (code : List Instruction),
      (markReachable labels afterGoto code).length = code.length
  | _, [] => rfl
  | _, i :: rest => by simp [markReachable, length_markReachable labels i.isGoto rest]

/-- Drops the instructions that control cannot reach. -/
def dropUnreachable (p : Program) : Outcome Bool :=
  let marked := markReachable p.labels false p.code
  { program := { p with code := (marked.filter (·.2)).map Prod.fst }
    result := .ok (marked.any (!·.2))
    events := (marked.filter (!·.2)).map fun e => .droppedUnreachable e.1 }

/-- A change makes the program shorter. -/
theorem length_dropUnreachable {p : Program} (h : p.dropUnreachable.result = .ok true) :
    p.dropUnreachable.program.code.length < p.code.length := by
  have h' : (markReachable p.labels false p.code).any (!·.2) = true := by
    simpa [dropUnreachable] using h
  obtain ⟨e, he, hd⟩ := List.any_eq_true.1 h'
  rw [← length_markReachable p.labels false p.code]
  simp only [dropUnreachable, List.length_map]
  rw [List.length_filter_lt_length_iff_exists]
  exact ⟨e, he, by simpa using hd⟩

end Program
end AdventureLogic
