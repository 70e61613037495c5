import AdventureLogic.Buckets
import AdventureLogic.Dominance.Tree
import AdventureLogic.Instruction

/-!
# Block graphs

A basic block is a run of commands that ends in one of two ways: it goes on to
one block or leaves the logic, or it tests clauses and goes one way if they
hold and another if they do not. A branch that is left open leads to the merge
point of the block, its immediate post-dominator.

A block graph numbers its blocks in the order in which they were added. Besides
the edges that the exits name, a block may have extra edges: they say where
control can go without saying how, as for a branch that is left open.

Key definitions: `Block`, `BlockGraph`, `BlockGraph.successors`,
`BlockGraph.predecessors`, `BlockGraph.toGraph`.
-/

namespace AdventureLogic

/-- The number of a block. -/
abbrev BlockId := NodeId

/-- How a block ends. -/
inductive BlockExit where
  /-- Goes on to `next`, or leaves the logic. -/
  | single (next : Option BlockId)
  /-- Goes on to `yes` if the clauses hold and to `no` if they do not. -/
  | branch (clauses : List Clause) (yes no : Option BlockId)
  deriving DecidableEq, Inhabited

/-- A basic block. -/
structure Block where
  /-- The name of the label at its start. -/
  name : Option String := none
  commands : List Command
  exit : BlockExit
  deriving DecidableEq, Inhabited

namespace Block

/-- The blocks that the exit names. -/
def exitTargets (b : Block) : List BlockId :=
  match b.exit with
  | .single next => next.toList
  | .branch _ yes no => yes.toList ++ no.toList

end Block

namespace BlockEntry

/-- Lists one more number, unless it is listed. -/
def join (ns : List BlockId) (n : BlockId) : List BlockId := if n ∈ ns then ns else ns ++ [n]

theorem mem_join {ns : List BlockId} {m n : BlockId} : m ∈ join ns n ↔ m ∈ ns ∨ m = n := by
  unfold join
  by_cases hn : n ∈ ns
  · rw [if_pos hn]
    exact ⟨.inl, fun h => h.elim id fun heq => heq ▸ hn⟩
  · simp [hn]

theorem nodup_join {ns : List BlockId} (h : ns.Nodup) (n : BlockId) : (join ns n).Nodup := by
  unfold join
  by_cases hn : n ∈ ns
  · rwa [if_pos hn]
  · rw [if_neg hn]
    refine List.nodup_append.2 ⟨h, List.pairwise_singleton _ n, fun m hm k hk heq => hn ?_⟩
    rwa [← List.mem_singleton.1 hk, ← heq]

end BlockEntry

/-- A block with the extra edges from it, none of which stands twice. -/
@[ext] structure BlockEntry where
  block : Block
  extra : List BlockId
  extra_nodup : extra.Nodup
  deriving DecidableEq

namespace BlockEntry

/-- A block without extra edges. -/
def ofBlock (b : Block) : BlockEntry := ⟨b, [], List.nodup_nil⟩

@[simp] theorem block_ofBlock (b : Block) : (ofBlock b).block = b := rfl

instance : Inhabited BlockEntry := ⟨ofBlock default⟩

/-- Adds an extra edge, if it is not there. -/
def addEdge (e : BlockEntry) (n : BlockId) : BlockEntry :=
  ⟨e.block, join e.extra n, nodup_join e.extra_nodup n⟩

@[simp] theorem block_addEdge (e : BlockEntry) (n : BlockId) : (e.addEdge n).block = e.block := rfl

@[simp] theorem extra_addEdge (e : BlockEntry) (n : BlockId) :
    (e.addEdge n).extra = join e.extra n := rfl

/-- Drops an element that equals the one before it. -/
def dropRepeats : List BlockId → List BlockId
  | [] => []
  | n :: rest =>
    match dropRepeats rest with
    | [] => [n]
    | m :: rest' => if n = m then m :: rest' else n :: m :: rest'

theorem mem_dropRepeats {n : BlockId} :
    ∀ {l : List BlockId}, n ∈ dropRepeats l ↔ n ∈ l
  | [] => Iff.rfl
  | m :: rest => by
    have ih := mem_dropRepeats (n := n) (l := rest)
    unfold dropRepeats
    split
    · rename_i hnil
      rw [hnil] at ih
      simp only [List.not_mem_nil, false_iff] at ih
      simp [ih]
    · rename_i k rest' hrest
      rw [hrest] at ih
      rw [List.mem_cons, ← ih]
      split
      · rename_i hmk
        subst hmk
        simp
      · rw [List.mem_cons]

theorem dropRepeats_concat {n : BlockId} : ∀ {l : List BlockId}, n ∉ l →
    dropRepeats (l ++ [n]) = dropRepeats l ++ [n]
  | [], _ => rfl
  | m :: rest, hn => by
    rw [List.mem_cons, not_or] at hn
    rw [List.cons_append, dropRepeats, dropRepeats, dropRepeats_concat hn.2]
    cases hrest : dropRepeats rest with
    | nil => simp [Ne.symm hn.1]
    | cons k rest' => by_cases hm : m = k <;> simp [hm]

/-- Where control can go from an entry: the targets of its exit, then the extra edges that are not
yet listed. -/
def successors (e : BlockEntry) : List BlockId :=
  dropRepeats (e.extra.foldl join e.block.exitTargets)

theorem mem_foldl_join {n : BlockId} : ∀ {edges ns : List BlockId},
    n ∈ edges.foldl join ns ↔ n ∈ ns ∨ n ∈ edges
  | [], ns => by simp
  | m :: edges, ns => by
    rw [List.foldl_cons, mem_foldl_join, mem_join, List.mem_cons, or_assoc]

theorem mem_successors {e : BlockEntry} {n : BlockId} :
    n ∈ e.successors ↔ n ∈ e.block.exitTargets ∨ n ∈ e.extra := by
  rw [successors, mem_dropRepeats, mem_foldl_join]

theorem nodup_dropRepeats_foldl_join : ∀ {edges ns : List BlockId}, (dropRepeats ns).Nodup →
    (dropRepeats (edges.foldl join ns)).Nodup
  | [], _, h => h
  | n :: edges, ns, h => by
    rw [List.foldl_cons]
    refine nodup_dropRepeats_foldl_join ?_
    by_cases hn : n ∈ ns
    · rwa [join, if_pos hn]
    · have hjoin := nodup_join h n
      rw [join, if_neg (mt mem_dropRepeats.1 hn)] at hjoin
      rwa [join, if_neg hn, dropRepeats_concat hn]

/-- **No block is listed twice:** an exit names a block twice only if both branches go there. -/
theorem nodup_successors (e : BlockEntry) : e.successors.Nodup := by
  refine nodup_dropRepeats_foldl_join ?_
  unfold Block.exitTargets
  cases e.block.exit with
  | single next => cases next <;> simp [dropRepeats]
  | branch clauses yes no =>
    cases yes with
    | none => cases no <;> simp [dropRepeats]
    | some m =>
      cases no with
      | none => simp [dropRepeats]
      | some n => by_cases hm : m = n <;> simp [dropRepeats, hm]

end BlockEntry

/-- A graph of basic blocks. -/
structure BlockGraph where
  entries : Array BlockEntry := #[]
  root : BlockId := 0
  deriving DecidableEq, Inhabited

namespace BlockGraph

/-- The graph without blocks. -/
def empty : BlockGraph := {}

/-- The number of blocks. -/
def size (g : BlockGraph) : Nat := g.entries.size

/-- The name of a block as a node. -/
def identity (n : BlockId) : String := "B" ++ toString n

/-- The block with a number. -/
def block? (g : BlockGraph) (n : BlockId) : Option Block := g.entries[n]?.map BlockEntry.block

/-- The block with a number that has to exist. -/
def block (g : BlockGraph) (n : BlockId) : Except Error Block :=
  match g.block? n with
  | some b => .ok b
  | none => .error (.unknownNode (identity n))

/-- Adds a block at the end. Its number is the size before. -/
def addBlock (g : BlockGraph) (b : Block) : BlockGraph :=
  { g with entries := g.entries.push (.ofBlock b) }

/-- Puts a block in the place of another. The extra edges stay. -/
def replaceBlock (g : BlockGraph) (n : BlockId) (b : Block) : Except Error BlockGraph :=
  if n < g.size then .ok { g with entries := g.entries.modify n fun e => { e with block := b } }
  else .error (.unknownNode (identity n))

/-- Adds an extra edge, if it is not there. -/
def addEdge (g : BlockGraph) (m n : BlockId) : Except Error BlockGraph :=
  if m < g.size then .ok { g with entries := g.entries.modify m fun e => e.addEdge n }
  else .error (.unknownNode (identity m))

/-- Makes another block the root. -/
def setRoot (g : BlockGraph) (n : BlockId) : BlockGraph := { g with root := n }

/-- Where control can go from a block. -/
def successors (g : BlockGraph) (n : BlockId) : List BlockId :=
  (g.entries[n]?).elim [] BlockEntry.successors

/-- Where control can go from each block, with the number of the block. -/
def numberedSuccessors (g : BlockGraph) : List (List BlockId × BlockId) :=
  (g.entries.map BlockEntry.successors).toList.zipIdx

/-- The numbers of the lists that a block is in. -/
def listing (lists : List (List BlockId × BlockId)) (n : BlockId) : List BlockId :=
  (lists.filter fun e => e.1.contains n).map Prod.snd

/-- From where control can come to a block. -/
def predecessors (g : BlockGraph) (n : BlockId) : List BlockId :=
  if n < g.size then listing g.numberedSuccessors n else []

/-- The number of a block and its name, if it has one. -/
def describe (g : BlockGraph) (n : BlockId) : String :=
  identity n ++ ((g.block? n).bind Block.name).elim "" fun name => " (" ++ name ++ ")"

/-- A command as in `set[3]`. -/
def commandText (c : Command) : String :=
  Opcode.actionName c.opcode ++ "[" ++ argumentsText (c.args.map UInt8.toNat) ++ "]"

/-- The text of a block in drawings. -/
def label (g : BlockGraph) (n : BlockId) : String :=
  match g.block? n with
  | none => identity n
  | some b =>
    g.describe n ++ "\n" ++ String.join (b.commands.map fun c => commandText c ++ "\n")
      ++ match b.exit with
        | .single _ => ""
        | .branch clauses _ _ => "if " ++ Clause.allText clauses ++ "\n"

/-- The text of an edge in drawings. -/
def edgeLabel (g : BlockGraph) (m n : BlockId) : Option String :=
  (g.block? m).map fun b =>
    match b.exit with
    | .single next => if next = some n then "next" else "merge"
    | .branch _ yes no =>
      if yes = some n then "then" else if no = some n then "else" else "merge"

/-- For each of `size` blocks the numbers of the lists that it is in. -/
def listings (size : Nat) (lists : List (List BlockId × BlockId)) : Array (List BlockId) :=
  Buckets.fill size Prod.fst Prod.snd (lists.flatMap fun e => e.1.map fun n => (n, e.2))

theorem filter_eq_of_nodup (n : BlockId) : ∀ {l : List BlockId}, l.Nodup →
    l.filter (fun m => m = n) = if l.contains n then [n] else []
  | [], _ => rfl
  | m :: rest, h => by
    obtain ⟨hm, hrest⟩ := List.nodup_cons.1 h
    rw [List.filter_cons, filter_eq_of_nodup n hrest]
    by_cases hn : m = n
    · subst hn
      simp [hm]
    · simp [hn, Ne.symm hn]

/-- The table has what `listing` finds, if no list has a block twice. -/
theorem getD_listings {size n : Nat} (h : n < size) {lists : List (List BlockId × BlockId)}
    (hn : ∀ e ∈ lists, e.1.Nodup) : (listings size lists).getD n [] = listing lists n := by
  unfold listings listing
  rw [Buckets.getD_fill h]
  induction lists with
  | nil => rfl
  | cons e rest ih =>
    obtain ⟨he, hrest⟩ := List.forall_mem_cons.1 hn
    rw [List.flatMap_cons, List.filter_append, List.map_append, ih hrest, List.filter_map,
      List.map_map]
    have hfilter := filter_eq_of_nodup n he
    simp only [Function.comp_def] at hfilter ⊢
    rw [hfilter, List.filter_cons]
    split
    · simp
    · simp

theorem nodup_of_mem_numberedSuccessors {g : BlockGraph} {e : List BlockId × BlockId}
    (h : e ∈ g.numberedSuccessors) : e.1.Nodup := by
  have hmem := List.fst_mem_of_mem_zipIdx h
  rw [Array.toList_map, List.mem_map] at hmem
  obtain ⟨entry, _, he⟩ := hmem
  exact he ▸ entry.nodup_successors

/-- A block graph as a rooted graph. The edges are found once for all blocks. -/
def toGraph (g : BlockGraph) : Graph :=
  let lists := g.entries.map BlockEntry.successors
  let table := listings g.size g.numberedSuccessors
  { root := g.root
    size := g.size
    successors := fun n => lists.getD n []
    predecessors := fun n => table.getD n []
    identity := identity
    label := g.label
    edgeLabel := g.edgeLabel }

@[simp] theorem successors_toGraph (g : BlockGraph) : g.toGraph.successors = g.successors := by
  funext n
  simp only [toGraph, successors, Array.getD_eq_getD_getElem?, Array.getElem?_map]
  cases g.entries[n]? <;> rfl

@[simp] theorem predecessors_toGraph (g : BlockGraph) :
    g.toGraph.predecessors = g.predecessors := by
  funext n
  unfold predecessors
  split
  · rename_i h
    exact getD_listings h fun _ => nodup_of_mem_numberedSuccessors
  · rename_i h
    exact Buckets.getD_fill_of_le (Nat.le_of_not_lt h) _ _ _

/-- The number of the virtual exit in the post-dominator tree. -/
def exitNode (g : BlockGraph) : NodeId := g.size

/-- The dominator tree. -/
def dominators (g : BlockGraph) : DominatorTree := g.toGraph.dominators

/-- The post-dominator tree. -/
def postDominators (g : BlockGraph) : DominatorTree := g.toGraph.postDominators

/-- What is reported when the post-dominator tree is computed. -/
def postDominatorsEvent (g : BlockGraph) : Event := g.toGraph.reversed.dominatorsEvent

end BlockGraph
end AdventureLogic
