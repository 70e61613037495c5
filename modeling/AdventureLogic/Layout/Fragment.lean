import AdventureLogic.AddressPool
import AdventureLogic.BlockGraph.Basic
import AdventureLogic.OrderedMap

/-!
# Fragments

Before blocks are laid out, each becomes a fragment: its commands get fresh
addresses, and so does its condition if it has one. A branch that is left open
is resolved to the merge point of the block, its immediate post-dominator; the
virtual exit is no merge point.

Key definitions: `Fragment`, `mergePoint`, `compileBlock`, `compileBlocks`.
-/

namespace AdventureLogic
namespace Layout

/-- How a fragment ends. -/
inductive FragmentEnd where
  /-- Goes on to `next`, or leaves the logic. -/
  | straight (next : Option BlockId)
  /-- Has a condition at `address` that goes on to `yes` or skips to `skip`. The branches meet at
  `merge`, if anywhere. -/
  | branch (clauses : List Clause) (address : Address) (yes skip : BlockId)
      (merge : Option BlockId)
  deriving DecidableEq, Inhabited

/-- A block whose instructions have addresses. -/
structure Fragment where
  code : List Instruction
  ending : FragmentEnd
  deriving DecidableEq, Inhabited

/-- The fragments of the blocks that can be reached, in the order of the walk. -/
abbrev Fragments := OrderedMap BlockId Fragment

/-- Where the branches of a block meet again, if anywhere. -/
def mergePoint (g : BlockGraph) (tree : DominatorTree) (n : BlockId) : Option BlockId :=
  match tree.immediateDominator n with
  | .ok (some m) => if m = g.exitNode then none else some m
  | _ => none

/-- A branch of a block: the one that is named, or the merge point. -/
def branchTarget (g : BlockGraph) (n : BlockId) (merge named : Option BlockId) :
    Except Error BlockId :=
  match named with
  | some m => .ok m
  | none =>
    match merge with
    | some m => .ok m
    | none => .error (.missingMerge (g.describe n))

/-- Gives commands fresh addresses. -/
def compileCommands (pool : AddressPool) :
    List Command → Except Error (List Instruction × AddressPool)
  | [] => .ok ([], pool)
  | c :: rest => do
    let (a, pool) ← pool.fresh
    let (code, pool) ← compileCommands pool rest
    return (.command a c :: code, pool)

/-- The fragment of a block. -/
def compileBlock (g : BlockGraph) (tree : DominatorTree) (pool : AddressPool) (n : BlockId) :
    Logged (Fragment × AddressPool) := do
  let block ← g.block n
  let (code, pool) ← compileCommands pool block.commands
  match block.exit with
  | .single next => return (⟨code, .straight next⟩, pool)
  | .branch clauses yes no =>
    let merge := mergePoint g tree n
    let skip ← branchTarget g n merge no
    let next ← branchTarget g n merge yes
    let (a, pool) ← pool.fresh
    Logged.report
      (.branched (g.describe n) a (BlockGraph.identity next) (BlockGraph.identity skip))
    return (⟨code, .branch clauses a next skip merge⟩, pool)

/-- The fragments of some blocks, after those in `done`. -/
def compileBlocks (g : BlockGraph) (tree : DominatorTree) (done : Fragments) (pool : AddressPool) :
    List BlockId → Logged (Fragments × AddressPool)
  | [] => pure (done, pool)
  | n :: rest => do
    let (f, pool) ← compileBlock g tree pool n
    compileBlocks g tree (done.insert n f) pool rest

end Layout
end AdventureLogic
