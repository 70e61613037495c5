import AdventureLogic.Program.Normalize

/-!
# Working on a program call by call

A program is worked on one call at a time. Its labels are computed anew, a pass
is run once or to its end, all passes are run, an address is asked for. The code
can also be changed by hand; such a change touches neither the labels nor the
pool, so that afterwards they need not match the code.

Key definitions: `Program.Call`, `Program.perform`, `Program.performAll`.
-/

namespace AdventureLogic
namespace Program

/-- What can be asked of a program. -/
inductive Call where
  /-- Computes the labels anew. -/
  | relabel
  /-- Runs a pass once. -/
  | pass (pass : Pass)
  /-- Runs a pass to its end. -/
  | settle (pass : Pass) (name : String)
  /-- Brings the program into normal form. -/
  | normalize (selfContained : Bool)
  /-- Hands out an address. -/
  | fresh
  /-- Puts other code in place of the old. -/
  | edit (code : List Instruction)
  deriving DecidableEq, Inhabited

/-- What a call that succeeds answers. -/
inductive Answer where
  | done
  /-- Whether the program has changed. -/
  | changed (b : Bool)
  /-- How often the program has changed. -/
  | changes (n : Nat)
  | address (a : Address)
  deriving DecidableEq, Inhabited

/-- The outcome with its result said in another way. -/
def Outcome.map {α β : Type} (f : α → β) (o : Outcome α) : Outcome β :=
  ⟨o.program, o.result.map f, o.events⟩

/-- The outcome of a step that fails without a trace. -/
def ofResult (p : Program) : Except Error (Answer × Program) → Outcome Answer
  | .ok (answer, q) => ⟨q, .ok answer, []⟩
  | .error e => ⟨p, .error e, []⟩

/-- Performs a call. -/
def perform (p : Program) : Call → Outcome Answer
  | .relabel => p.ofResult (p.relabel.map fun q => (.done, q))
  | .pass pass => (pass.run p).map .changed
  | .settle pass name => (pass.toFixpoint name p).map .changes
  | .normalize selfContained => (p.normalize selfContained).map fun _ => .done
  | .fresh => p.ofResult (p.pool.fresh.map fun r => (.address r.1, { p with pool := r.2 }))
  | .edit code => ⟨{ p with code := code }, .ok .done, []⟩

/-- The program after a sequence of calls. -/
def performAll (p : Program) (calls : List Call) : Program :=
  calls.foldl (fun p call => (p.perform call).program) p

end Program
end AdventureLogic
