import AdventureLogic.BlockGraph.Basic
import AdventureLogic.FiniteSet
import AdventureLogic.Label
import AdventureLogic.Positions

/-!
# From code to blocks

A block starts at the first instruction, at the target of a jump and after an
instruction that ends a block. From such a leader it runs up to a goto, a
condition, a return, the next leader or the end of the code. Only blocks that
control can reach are found; they are numbered in the order in which they are
found.

A branch that leads straight to the merge point of its block is left open: the
edge stays, but the exit no longer names it.

Key definitions: `Code.leaders`, `Code.scan`, `Code.discover`,
`BlockGraph.ofInstructions`.
-/

namespace AdventureLogic

/-- How a run of instructions ends. -/
inductive SpanEnd where
  /-- In a condition: on to the next position, or to the position it skips to. -/
  | branch (clauses : List Clause) (next skip : Nat)
  /-- At another position. -/
  | into (position : Nat)
  /-- By leaving the logic. -/
  | leave
  deriving DecidableEq, Inhabited

/-- A run of commands from a position on. -/
structure Span where
  start : Nat
  commands : List Command
  ending : SpanEnd
  deriving DecidableEq, Inhabited

namespace SpanEnd

/-- The positions to which control can go, the first to be looked at first. -/
def targets : SpanEnd → List Nat
  | .branch _ next skip => [next, skip]
  | .into position => [position]
  | .leave => []

theorem length_targets_le (e : SpanEnd) : e.targets.length ≤ 2 := by
  cases e <;> simp [targets]

end SpanEnd

/-- Code whose blocks are to be found. -/
structure Code where
  instructions : List Instruction
  /-- The instructions from each position on. -/
  tails : Array (List Instruction) := (Buckets.suffixes instructions).toArray
  tails_eq : tails = (Buckets.suffixes instructions).toArray := by rfl
  positions : NatMap Nat
  /-- Where blocks start. -/
  leaders : Std.TreeSet Nat

namespace Code

/-- The position of a jump's target. -/
def resolve (positions : NatMap Nat) (source target : Address) : Except Error Nat :=
  match positions.get? target.toNat with
  | some p => .ok p
  | none => .error (.danglingTarget source target)

/-- Whether the next instruction starts a block. -/
def endsBlock : Instruction → Bool
  | .command _ c => c.isReturn
  | .condition _ _ _ => true
  | .goto _ _ => true

/-- The leaders that an instruction at a position makes. -/
def leadersAt (positions : NatMap Nat) (i : Instruction) (position : Nat) :
    Except Error (List Nat) :=
  let after := if endsBlock i then [position + 1] else []
  match i with
  | .condition a _ none => .error (.unresolvedSkip a)
  | _ =>
    match i.target? with
    | none => .ok after
    | some t => (resolve positions i.address t).map fun p => after ++ [p]

/-- The positions where blocks start. -/
def findLeaders (positions : NatMap Nat) (code : List Instruction) :
    Except Error (Std.TreeSet Nat) :=
  (code.zipIdx.mapM fun p => leadersAt positions p.1 p.2).map fun found =>
    .ofList (0 :: found.flatten)

/-- Code with its leaders. Fails if a jump leads nowhere or a condition has no skip target. -/
def ofInstructions (code : List Instruction) : Except Error Code :=
  let positions := positionsOf code
  (findLeaders positions code).map fun leaders =>
    { instructions := code, positions := positions, leaders := leaders }

/-- Runs through the instructions from `position` on. The first of them belongs to the run even if
it is a leader. -/
def scanFrom (code : Code) (first : Bool) (position : Nat) :
    List Instruction → Except Error (List Command × SpanEnd)
  | [] => .ok ([], .leave)
  | i :: rest =>
    if !first && code.leaders.contains position then .ok ([], .into position)
    else
      match i with
      | .command _ c =>
        if c.isReturn then .ok ([c], .leave)
        else (scanFrom code false (position + 1) rest).map fun r => (c :: r.1, r.2)
      | .condition a clauses skip =>
        if rest.isEmpty then .error (.unexpectedEnd a.toNat)
        else
          match skip with
          | none => .error (.unresolvedSkip a)
          | some t =>
            (resolve code.positions a t).map fun p => ([], .branch clauses (position + 1) p)
      | .goto a t => (resolve code.positions a t).map fun p => ([], .into p)

theorem getD_tails (code : Code) (n : Nat) :
    code.tails.getD n [] = code.instructions.drop n := by
  rw [code.tails_eq, ← Buckets.getD_suffixes, Array.getD_eq_getD_getElem?, List.getElem?_toArray,
    List.getD_eq_getElem?_getD]

/-- The run from a position on. -/
def scan (code : Code) (start : Nat) : Except Error Span :=
  (scanFrom code true start (code.tails.getD start [])).map fun r => ⟨start, r.1, r.2⟩

/-- Finds the runs that control can reach from the positions `work`, the first of them first.
Positions not in `unseen` have been looked at. -/
def discoverFrom (code : Code) (unseen : Std.TreeSet Nat) (work : List Nat) :
    Except Error (List Span) :=
  match work with
  | [] => .ok []
  | start :: work =>
    if start ∈ unseen then
      match scan code start with
      | .error e => .error e
      | .ok span =>
        (discoverFrom code (unseen.erase start) (span.ending.targets ++ work)).map (span :: ·)
    else discoverFrom code unseen work
termination_by 2 * unseen.size + work.length
decreasing_by
  · have h : start ∈ unseen := by assumption
    have := FiniteSet.size_erase_lt h
    have := span.ending.length_targets_le
    simp only [List.length_append, List.length_cons]
    omega
  · simp

/-- The runs that control can reach from the start, in the order in which they are found. -/
def discover (code : Code) : Except Error (List Span) :=
  discoverFrom code (.ofList (List.range code.instructions.length)) [0]

end Code

namespace BlockGraph

/-- The number of each run's block, by the position where it starts: its place among the runs. -/
def numbersOf (spans : List Span) : Std.TreeMap Nat BlockId :=
  .ofList (spans.zipIdx.map fun s => (s.1.start, s.2))

/-- The block of a run. -/
def blockOfSpan (code : Array Instruction) (labels : LabelTable)
    (numbers : Std.TreeMap Nat BlockId) (span : Span) : Block where
  name := (code[span.start]?.bind fun i => labels.get? i.address).map Label.name
  commands := span.commands
  exit :=
    match span.ending with
    | .branch clauses next skip => .branch clauses numbers[next]? numbers[skip]?
    | .into position => .single numbers[position]?
    | .leave => .single none

/-- The graph of some runs, with all branches named. -/
def ofSpans (code : List Instruction) (labels : LabelTable) (spans : List Span) : BlockGraph :=
  let code := code.toArray
  let numbers := numbersOf spans
  { entries := (spans.map fun span => .ofBlock (blockOfSpan code labels numbers span)).toArray
    root := 0 }

/-- Leaves the branch of a block open if it leads to the merge point. -/
def openBranch (tree : DominatorTree) (n : BlockId) (e : BlockEntry) : BlockEntry :=
  match e.block.exit with
  | .branch clauses yes (some no) =>
    match tree.immediateDominator n with
    | .ok (some merge) =>
      if merge = no then
        { e with block := { e.block with exit := .branch clauses yes none } }.addEdge no
      else e
    | _ => e
  | _ => e

/-- Leaves all branches open that lead to the merge points of their blocks. -/
def openBranches (g : BlockGraph) : BlockGraph :=
  let tree := g.postDominators
  { g with entries := g.entries.mapIdx (openBranch tree) }

/-- The block graph of some code, with the names of labels. -/
def ofInstructions (code : List Instruction) (labels : LabelTable) : Logged BlockGraph := do
  if code.isEmpty then
    throw (.unexpectedEnd 0)
  let marked ← Code.ofInstructions code
  let spans ← marked.discover
  let full := ofSpans code labels spans
  Logged.report full.postDominatorsEvent
  let graph := full.openBranches
  Logged.report (.built graph.size code.length)
  return graph

end BlockGraph
end AdventureLogic
