import AdventureLogic.FiniteSet
import AdventureLogic.Label
import AdventureLogic.Layout.Landing

/-!
# Laying out fragments

Fragments are laid out one after the other, from the root on. What is left to
do is a stack of tasks: lay out a block and what follows it, up to a block
where to stop. The first time a block is reached its code is put out; every
later time a goto to it.

The branches of a condition are laid out up to the block where they meet, and
then that block. If the branches do not meet in a block of their own, the
branch that holds comes first and falls into the other.

Key definitions: `Plan.entry`, `Task`, `State`, `Plan.step`, `Plan.run`. Key
theorems: `Plan.entry_eq_ok_iff`: the entry of a block is where control lands;
`Plan.load_step`: a step never adds more work than the block it lays out was
worth.
-/

namespace AdventureLogic
namespace Layout

/-- A block graph with its fragments. -/
structure Plan where
  graph : BlockGraph
  fragments : Fragments
  /-- The blocks that have a fragment. -/
  blocks : Std.TreeSet BlockId := .ofList fragments.keys
  blocks_eq : blocks = .ofList fragments.keys := by rfl
  /-- Where control lands, for blocks that have been looked at. -/
  landings : Landings fragments := .ofFragments fragments

/-- Lay out `block` and what follows it, up to `stop`. -/
structure Task where
  block : BlockId
  /-- Where to stop. -/
  stop : Option BlockId := none
  /-- Whether the block at the stop is laid out elsewhere, so that a goto is needed. -/
  jumpAtStop : Bool := false
  deriving DecidableEq, Inhabited

/-- What has been laid out, and what is left to do. -/
structure State where
  /-- The tasks left, the next one first. -/
  work : List Task
  /-- The code laid out, the last instruction first. -/
  laid : List Instruction := []
  /-- The blocks not laid out. -/
  unplaced : Std.TreeSet BlockId
  labels : LabelTable := ∅
  pool : AddressPool

namespace State

/-- A bound on the number of steps left. -/
def load (s : State) : Nat := 3 * s.unplaced.size + s.work.length

/-- The code laid out. -/
def output (s : State) : List Instruction := s.laid.reverse

/-- Adds instructions to the output. -/
def emit (s : State) (code : List Instruction) : State :=
  { s with laid := code.reverseAux s.laid }

@[simp] theorem output_emit (s : State) (code : List Instruction) :
    (s.emit code).output = s.output ++ code := by
  simp [emit, output, List.reverseAux_eq]

/-- Notes that a block is laid out. -/
def place (s : State) (n : BlockId) : State := { s with unplaced := s.unplaced.erase n }

/-- Puts tasks on the stack. -/
def push (s : State) (tasks : List Task) : State := { s with work := tasks ++ s.work }

end State

namespace Task

/-- The tasks that a condition leaves: the branches and what follows them. -/
def ofBranch (task : Task) (yes skip : BlockId) (merge : Option BlockId) : List Task :=
  match merge with
  | some m =>
    if m = skip then [⟨yes, some skip, false⟩, { task with block := skip }]
    else [⟨yes, some m, true⟩, ⟨skip, some m, false⟩, { task with block := m }]
  | none => [⟨yes, some skip, false⟩, { task with block := skip }]

theorem length_ofBranch_le (task : Task) (yes skip : BlockId) (merge : Option BlockId) :
    (task.ofBranch yes skip merge).length ≤ 3 := by
  unfold ofBranch
  split
  · split <;> simp
  · simp

end Task

namespace Plan

variable (plan : Plan)

/-- The fragment of a block, which has to be reached from the root. -/
def fragment (n : BlockId) : Except Error Fragment :=
  match plan.fragments.get? n with
  | some f => .ok f
  | none => .error (.unknownNode (plan.graph.describe n))

/-- The address where control lands when it enters a block; `unseen` are the blocks not passed
yet. -/
def entryFrom (unseen : Std.TreeSet BlockId) (n : BlockId) : Except Error Address :=
  match plan.fragment n with
  | .error e => .error e
  | .ok f =>
    match f.entrance with
    | .stop a => .ok a
    | .leave => .error (.unresolvedExit (plan.graph.describe n))
    | .pass next =>
      if n ∈ unseen then entryFrom (unseen.erase n) next
      else .error (.unresolvedExit (plan.graph.describe n))
termination_by unseen.size
decreasing_by exact FiniteSet.size_erase_lt (by assumption)

/-- The address where control lands when it enters a block. -/
def entry (n : BlockId) : Except Error Address :=
  match plan.landings.get? n with
  | some l => .ok l.val
  | none => plan.entryFrom plan.blocks n

theorem fragment_eq_ok_iff {n : BlockId} {f : Fragment} :
    plan.fragment n = .ok f ↔ plan.fragments.get? n = some f := by
  unfold fragment
  cases plan.fragments.get? n <;> simp

theorem lands_of_entryFrom {unseen : Std.TreeSet BlockId} {n : BlockId} {a : Address}
    (h : plan.entryFrom unseen n = .ok a) : ∃ k, Lands plan.fragments k n a := by
  fun_induction entryFrom plan unseen n with
  | case1 => cases h
  | case2 unseen n f hf b he =>
    cases h
    exact ⟨0, .stop (plan.fragment_eq_ok_iff.1 hf) he⟩
  | case3 => cases h
  | case4 unseen n f hf next he _ ih =>
    obtain ⟨k, hk⟩ := ih h
    exact ⟨k + 1, .pass (plan.fragment_eq_ok_iff.1 hf) he hk⟩
  | case5 => cases h

/-- Control that lands passes no block twice, so blocks that land later do not matter. -/
theorem entryFrom_of_lands {k : Nat} {n : BlockId} {a : Address}
    (h : Lands plan.fragments k n a) : ∀ {unseen : Std.TreeSet BlockId},
    (∀ {j m b}, Lands plan.fragments j m b → j ≤ k → m ∈ unseen) →
      plan.entryFrom unseen n = .ok a := by
  induction h with
  | stop hf he =>
    intro unseen _
    rw [entryFrom, plan.fragment_eq_ok_iff.2 hf]
    simp only [he]
  | @pass k n next f a hf he hn ih =>
    intro unseen hu
    have hm : n ∈ unseen := hu (.pass hf he hn) (Nat.le_refl _)
    rw [entryFrom, plan.fragment_eq_ok_iff.2 hf]
    simp only [he, if_pos hm]
    refine ih fun {j m b} hj hle => ?_
    rw [Std.TreeSet.mem_erase]
    refine ⟨fun hc => ?_, hu hj (Nat.le_succ_of_le hle)⟩
    have hnm : n = m := Std.LawfulEqCmp.eq_of_compare hc
    subst hnm
    have := (hj.unique (.pass hf he hn)).1
    omega

theorem mem_blocks_of_lands {k : Nat} {n : BlockId} {a : Address}
    (h : Lands plan.fragments k n a) : n ∈ plan.blocks := by
  have key : ∀ {f}, plan.fragments.get? n = some f → n ∈ plan.blocks := by
    intro f hf
    rw [plan.blocks_eq, Std.TreeSet.mem_ofList, List.contains_iff_mem]
    exact List.mem_map.2 ⟨(n, f), (OrderedMap.get?_eq_some_iff _ _ _).1 hf, rfl⟩
  cases h with
  | stop hf _ => exact key hf
  | pass hf _ _ => exact key hf

theorem entry_eq_entryFrom (n : BlockId) : plan.entry n = plan.entryFrom plan.blocks n := by
  unfold entry
  split
  · rename_i l _
    obtain ⟨k, hk⟩ := l.property
    exact (plan.entryFrom_of_lands hk fun hj _ => plan.mem_blocks_of_lands hj).symm
  · rfl

/-- **The entry of a block is where control lands** that enters it. -/
theorem entry_eq_ok_iff {n : BlockId} {a : Address} :
    plan.entry n = .ok a ↔ ∃ k, Lands plan.fragments k n a := by
  rw [entry_eq_entryFrom]
  constructor
  · exact plan.lands_of_entryFrom
  · rintro ⟨k, hk⟩
    exact plan.entryFrom_of_lands hk fun hj _ => plan.mem_blocks_of_lands hj

/-- Notes a jump to a block. If the block has a name, so has its label. -/
def refer (labels : LabelTable) (target source : Address) (n : BlockId) : LabelTable :=
  if labels.contains target then
    labels.modify target fun l => { l with references := l.references ++ [source] }
  else
    match (plan.graph.block? n).bind Block.name with
    | some name => labels.insertIfNew target ⟨target, name, [source]⟩
    | none => labels

/-- Puts out a goto to a block. -/
def jumpTo (s : State) (n : BlockId) : Logged State := do
  let target ← plan.entry n
  let (a, pool) ← s.pool.fresh
  Logged.report (.jumped target (plan.graph.describe n))
  let laid := s.emit [.goto a target]
  return { laid with labels := plan.refer laid.labels target a n, pool := pool }

/-- Puts out a return after a block that leaves the logic, unless it ends in one or nothing
follows. -/
def leave (s : State) (n : BlockId) : Logged State :=
  if s.work.isEmpty || s.laid.head?.any Instruction.isReturn then pure s
  else do
    let (a, pool) ← s.pool.fresh
    Logged.report (.returned (plan.graph.describe n) a)
    return { s.emit [.command a Command.ret] with pool := pool }

/-- Puts out the fragment of a task. -/
def lay (s : State) (task : Task) (f : Fragment) : Logged State :=
  let laid := (s.place task.block).emit f.code
  match f.ending with
  | .straight (some next) => pure (laid.push [{ task with block := next }])
  | .straight none => plan.leave laid task.block
  | .branch clauses a yes skip merge => do
    let target ← plan.entry skip
    let tested := laid.emit [.condition a clauses (some target)]
    return { tested with labels := plan.refer tested.labels target a skip }.push
      (task.ofBranch yes skip merge)

/-- Carries out a task. -/
def step (s : State) (task : Task) : Logged State :=
  if task.stop = some task.block then
    if task.jumpAtStop then plan.jumpTo s task.block else pure s
  else do
    let f ← plan.fragment task.block
    if task.block ∈ s.unplaced then
      let _ ← plan.entry task.block
      plan.lay s task f
    else plan.jumpTo s task.block

theorem load_jumpTo {s t : State} {n : BlockId} (h : (plan.jumpTo s n).result = .ok t) :
    t.load = s.load := by
  obtain ⟨target, _, h⟩ := Logged.result_bind_eq_ok.1 h
  obtain ⟨⟨a, pool⟩, _, h⟩ := Logged.result_bind_eq_ok.1 h
  obtain ⟨_, _, h⟩ := Logged.result_bind_eq_ok.1 h
  cases h
  rfl

theorem load_leave {s t : State} {n : BlockId} (h : (plan.leave s n).result = .ok t) :
    t.load = s.load := by
  unfold leave at h
  split at h
  · cases h
    rfl
  · obtain ⟨⟨a, pool⟩, _, h⟩ := Logged.result_bind_eq_ok.1 h
    obtain ⟨_, _, h⟩ := Logged.result_bind_eq_ok.1 h
    cases h
    rfl

theorem load_lay {s t : State} {task : Task} {f : Fragment} (hm : task.block ∈ s.unplaced)
    (h : (plan.lay s task f).result = .ok t) : t.load ≤ s.load := by
  have hlen := FiniteSet.size_erase_lt hm
  unfold lay at h
  dsimp only at h
  split at h
  · cases h
    simp only [State.load, State.push, State.emit, State.place, List.length_append,
      List.length_cons, List.length_nil]
    omega
  · rw [plan.load_leave h]
    simp only [State.load, State.emit, State.place]
    omega
  · rename_i clauses a yes skip merge _
    obtain ⟨target, _, h⟩ := Logged.result_bind_eq_ok.1 h
    cases h
    have := task.length_ofBranch_le yes skip merge
    simp only [State.load, State.push, State.emit, State.place, List.length_append]
    omega

/-- **A step does not add to the load.** -/
theorem load_step {s t : State} {task : Task} (h : (plan.step s task).result = .ok t) :
    t.load ≤ s.load := by
  unfold step at h
  split at h
  · split at h
    · exact Nat.le_of_eq (plan.load_jumpTo h)
    · cases h
      exact Nat.le_refl _
  · obtain ⟨f, _, h⟩ := Logged.result_bind_eq_ok.1 h
    split at h
    · rename_i hm
      obtain ⟨_, _, h⟩ := Logged.result_bind_eq_ok.1 h
      exact plan.load_lay hm h
    · exact Nat.le_of_eq (plan.load_jumpTo h)

/-- Takes the next task off the stack and carries it out. -/
def next (s : State) (task : Task) (rest : List Task) : Logged State :=
  plan.step { s with work := rest } task

/-- Carries out all tasks. -/
def run (s : State) : Logged State :=
  match _hw : s.work with
  | [] => pure s
  | task :: rest =>
    match _hs : plan.next s task rest with
    | ⟨.error e, events⟩ => ⟨.error e, events⟩
    | ⟨.ok t, events⟩ =>
      let final := run t
      ⟨final.result, events ++ final.events⟩
termination_by s.load
decreasing_by
  have h : (plan.next s task rest).result = .ok t := by rw [_hs]
  have := plan.load_step h
  simp only [State.load, _hw, List.length_cons] at this ⊢
  omega

/-- The state before the first task: lay out the root and what follows it. -/
def start (pool : AddressPool) : State where
  work := [⟨plan.graph.root, none, false⟩]
  unplaced := plan.blocks
  pool := pool

end Plan
end Layout
end AdventureLogic
