import AdventureLogic.AddressPool
import AdventureLogic.Event
import AdventureLogic.Label
import AdventureLogic.NameSet
import AdventureLogic.Positions
import AdventureLogic.Result

/-!
# Linear programs

A program is code with its labels and the pool of its addresses. The labels
can be computed anew from the jumps. The jumps are put into groups with one
target each, in the order in which the targets come up, and the groups are
sorted by where their targets stand. A target that had a label keeps its name,
and every other one gets the next number that no name in use has. The numbers
are those of a signed 32-bit word: after the largest comes the smallest.

Key definitions: `Program`, `Program.groupJumps`, `Program.nextNumber`,
`Program.relabel`, `Program.ofCode`, `Program.Outcome`.
-/

namespace AdventureLogic

/-- Linear code with its labels and the pool of its addresses. -/
structure Program where
  code : List Instruction
  labels : LabelTable
  pool : AddressPool

namespace Program

/-- The instructions with their labels. -/
def listing (p : Program) : Listing := ⟨p.code, p.labels⟩

/-- The positions of the instructions, by address. Of two with one address the later counts. -/
def positions (p : Program) : OrderedMap Address Nat :=
  .ofList (p.code.zipIdx.map fun e => (e.1.address, e.2))

/-- The addresses of the instructions. -/
def addresses (code : List Instruction) : List Address := code.map Instruction.address

/-- Puts the jump of an instruction to those that lead to the same target. Fails if the target is no
instruction. -/
def fileJump (positions : NatMap Nat) (groups : OrderedMap Address (Array Address))
    (i : Instruction) : Except Error (OrderedMap Address (Array Address)) :=
  match i.target? with
  | none => .ok groups
  | some t =>
    if positions.contains t.toNat then
      .ok ((groups.insertIfNew t #[]).modify t fun sources => sources.push i.address)
    else .error (.danglingTarget i.address t)

/-- The addresses of the instructions that jump, in code order, by the target. The targets come in
the order in which the code uses them first. -/
def groupJumps (positions : NatMap Nat) (code : List Instruction) :
    Except Error (OrderedMap Address (Array Address)) :=
  code.foldlM (fileJump positions) ∅

/-- Whether `a` stands no later than `b`. What has no position comes first. -/
def standsBefore (positions : NatMap Nat) (a b : Address) : Bool :=
  match positions.get? a.toNat, positions.get? b.toNat with
  | none, _ => true
  | some _, none => false
  | some m, some n => m ≤ n

/-- The groups in the order in which their targets stand. -/
def sortGroups (positions : NatMap Nat) (groups : OrderedMap Address (Array Address)) :
    List (Address × Array Address) :=
  groups.entries.mergeSort fun g h => standsBefore positions g.1 h.1

/-- The next number after `last` with which a label has none of the names. The names that are passed
on the way are not looked for again. -/
def nextNumber (names : NameSet) (last : Int32) : Int32 :=
  match names.without? (Label.numbered (last + 1).toInt) with
  | some rest => nextNumber rest.1 (last + 1)
  | none => last + 1
termination_by names.size
decreasing_by exact rest.2

/-- The labels of some groups: old names are kept, new ones are numbered after `last` and are none
of those in use. -/
def labelGroups (old : LabelTable) (used : NameSet) (last : Int32) :
    List (Address × Array Address) → List (Address × Label)
  | [] => []
  | (a, sources) :: rest =>
    match old.get? a with
    | some l => (a, ⟨a, l.name, sources.toList⟩) :: labelGroups old used last rest
    | none =>
      let n := nextNumber used last
      let name := Label.numbered n.toInt
      (a, ⟨a, name, sources.toList⟩) :: labelGroups old (used.add name) n rest

/-- The names that the targets of some groups keep. -/
def keptNames (old : LabelTable) (groups : List (Address × Array Address)) : List String :=
  groups.filterMap fun g => (old.get? g.1).map Label.name

/-- The labels of some groups that had the labels `old` before. -/
def labelsOf (old : LabelTable) (groups : List (Address × Array Address)) : LabelTable :=
  .ofList (labelGroups old (.ofNames (keptNames old groups)) 0 groups)

/-- Computes the labels anew. Fails if a jump leads to no instruction. -/
def relabel (p : Program) : Except Error Program := do
  let positions := positionsOf p.code
  let groups ← groupJumps positions p.code
  return { p with labels := labelsOf p.labels (sortGroups positions groups) }

/-- The labels are those of the groups of jumps. -/
theorem relabel_eq_ok {p q : Program} : p.relabel = .ok q ↔
    ∃ groups, groupJumps (positionsOf p.code) p.code = .ok groups ∧
      { p with labels := labelsOf p.labels (sortGroups (positionsOf p.code) groups) } = q := by
  rw [relabel]
  refine Result.bind_eq_ok.trans (exists_congr fun groups => and_congr_right fun _ => ?_)
  exact Result.pure_eq_ok

theorem code_relabel {p q : Program} (h : p.relabel = .ok q) : q.code = p.code := by
  obtain ⟨_, _, rfl⟩ := relabel_eq_ok.1 h
  rfl

theorem pool_relabel {p q : Program} (h : p.relabel = .ok q) : q.pool = p.pool := by
  obtain ⟨_, _, rfl⟩ := relabel_eq_ok.1 h
  rfl

/-- The program of some code. Fails if an address stands twice or a jump leads to no
instruction. -/
def ofCode (code : List Instruction) (labels : LabelTable) : Except Error Program := do
  let pool ← AddressPool.ofInstructions code
  relabel ⟨code, labels, pool⟩

/-- What a step on a program leaves behind. A step that fails may leave a changed program. -/
structure Outcome (α : Type) where
  program : Program
  result : Except Error α
  events : List Event := []

namespace Outcome

variable {α β : Type}

/-- The outcome after some earlier events. -/
def after (events : List Event) (o : Outcome α) : Outcome α :=
  { o with events := events ++ o.events }

/-- Goes on with the program that a step left, if the step succeeded. -/
def andThen (o : Outcome α) (next : α → Program → Outcome β) : Outcome β :=
  match o.result with
  | .error e => ⟨o.program, .error e, o.events⟩
  | .ok a => (next a o.program).after o.events

end Outcome
end Program
end AdventureLogic
