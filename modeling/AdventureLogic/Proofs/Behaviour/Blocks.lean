import AdventureLogic.Layout.Fragment
import AdventureLogic.Proofs.Behaviour.Machine

/-!
# Runs of block graphs

A run of a block graph starts at the root. The commands of a block are carried
out in order; a return among them ends the run. Then the exit of the block
decides: the run goes on to the next block or ends, or it tests the clauses and
takes one of two branches. A branch that is left open leads to the immediate
post-dominator of the block, unless that is the virtual exit.

Key definitions: `Block.effects`, `BlockGraph.Place`, `Machine.ofGraph`.
-/

namespace AdventureLogic

/-- What a block can show when it runs. -/
def Block.effects (b : Block) : List Effect :=
  b.commands.map .command ++
    match b.exit with
    | .single _ => []
    | .branch clauses _ _ => [.test clauses]

namespace BlockGraph

/-- Where a run of a block graph stands. -/
inductive Place where
  /-- In a block, with some of its commands left. -/
  | inside (n : BlockId) (left : List Command)
  /-- At a block that does not exist. -/
  | nowhere
  deriving DecidableEq, Inhabited

/-- The start of a block. -/
def enter (g : BlockGraph) (n : BlockId) : Place :=
  match g.block? n with
  | some b => .inside n b.commands
  | none => .nowhere

/-- Where a branch of the block `n` leads: to the block that is named, or to the merge point if the
branch is left open. -/
def branchPlace (g : BlockGraph) (n : BlockId) (named : Option BlockId) : Place :=
  (named.or (Layout.mergePoint g g.postDominators n)).elim .nowhere g.enter

/-- What a run does at the end of the block `n`. -/
def exitMove (g : BlockGraph) (n : BlockId) : BlockExit → Move Place
  | .single none => .halt
  | .single (some m) => .pass (g.enter m)
  | .branch clauses yes no => .ask clauses (g.branchPlace n yes) (g.branchPlace n no)

end BlockGraph

/-- The run of a block graph. -/
def Machine.ofGraph (g : BlockGraph) : Machine BlockGraph.Place where
  start := g.enter g.root
  move
    | .nowhere => .halt
    | .inside n (c :: left) => if c.isReturn then .halt else .act c (.inside n left)
    | .inside n [] => (g.block? n).elim .halt fun b => g.exitMove n b.exit

namespace BlockGraph

theorem enter_of_block? {g : BlockGraph} {n : BlockId} {b : Block} (h : g.block? n = some b) :
    g.enter n = .inside n b.commands := by
  rw [enter, h]

theorem branchPlace_of_or {g : BlockGraph} {n m : BlockId} {named : Option BlockId}
    (h : named.or (Layout.mergePoint g g.postDominators n) = some m) :
    g.branchPlace n named = g.enter m := by
  rw [branchPlace, h]
  rfl

theorem move_inside_nil {g : BlockGraph} {n : BlockId} {b : Block} (h : g.block? n = some b) :
    (Machine.ofGraph g).move (.inside n []) = g.exitMove n b.exit := by
  simp only [Machine.ofGraph, h, Option.elim_some]

end BlockGraph
end AdventureLogic
