import AdventureLogic.BlockGraph.Editor
import AdventureLogic.Proofs.Dominance.Reversed
import Mathlib.Data.List.Induction
import Mathlib.Data.List.Nodup

/-!
# Edges under editing

After any sequence of calls, failed ones and questions included, the editor
answers with what the calls have built: the blocks that are in place, and the
edges in the order in which they were added. This is noted call by call, without
any table and with all repeats (`Editor.Record`). A step of the editor keeps up
with the note (`Editor.Follows.perform`), and its table, if it has one, stays
that of the graph; so does a run.

Where control can go from a block is listed number by number, one that is
already listed being left out. The graph starts with all that the exit names and
leaves out a repeat there in another way, which comes to the same
(`BlockEntry.successors_listed`).

Key definitions: `Editor.listed`, `Editor.Record`, `Editor.Follows`,
`Editor.Consistent`. Key theorems: `Editor.Follows.perform`,
`Editor.consistent_run`.
-/

namespace AdventureLogic
namespace Editor

/-! ## What has been built -/

/-- Lists numbers in order, leaving out any that is already listed. -/
def listed (ns : List BlockId) : List BlockId := ns.foldl BlockEntry.join []

theorem listed_concat (ns : List BlockId) (n : BlockId) :
    listed (ns ++ [n]) = BlockEntry.join (listed ns) n := List.foldl_concat ..

theorem nodup_listed (ns : List BlockId) : (listed ns).Nodup := by
  induction ns using List.reverseRecOn with
  | nil => exact .nil
  | append_singleton ns n ih =>
    rw [listed_concat]
    exact BlockEntry.nodup_join ih n

/-- What a sequence of calls has built. -/
structure Record where
  /-- The blocks in place. -/
  blocks : List Block := []
  /-- The edges that were added, in order. -/
  edges : List (BlockId × BlockId) := []

namespace Record

/-- Notes a call. Questions, another root and calls that fail build nothing. -/
def note (r : Record) : Call → Record
  | .addBlock b => { r with blocks := r.blocks ++ [b] }
  | .replaceBlock n b => { r with blocks := r.blocks.set n b }
  | .addEdge m n => if m < r.blocks.length then { r with edges := r.edges ++ [(m, n)] } else r
  | .setRoot _ | .successors _ | .predecessors _ => r

/-- What has been built from nothing. -/
def ofCalls (calls : List Call) : Record := calls.foldl note {}

/-- Where the added edges lead from a block. -/
def extra (r : Record) (n : BlockId) : List BlockId := (r.edges.filter (·.1 = n)).map Prod.snd

/-- Where control can go from a block: to the targets of its exit, and along the added edges. -/
def successors (r : Record) (n : BlockId) : List BlockId :=
  listed (r.blocks[n]?.elim [] Block.exitTargets ++ r.extra n)

/-- A block with the edges from it, as the graph should have it. -/
def entry? (r : Record) (n : BlockId) : Option BlockEntry :=
  r.blocks[n]?.map fun b => (r.extra n).foldl BlockEntry.addEdge (.ofBlock b)

end Record

end Editor

/-! ## Lists without repeats -/

namespace BlockEntry

open Editor

/-- Joining what is listed joins the same. -/
theorem foldl_join_listed (ns edges : List BlockId) :
    (listed edges).foldl join ns = edges.foldl join ns := by
  induction edges using List.reverseRecOn with
  | nil => rfl
  | append_singleton edges n ih =>
    rw [listed_concat, List.foldl_concat, ← ih, join]
    by_cases hn : n ∈ listed edges
    · rw [if_pos hn, join, if_pos (mem_foldl_join.2 (.inr hn))]
    · rw [if_neg hn, List.foldl_concat]

/-- Listing drops the same repeats, where the repeats follow each other. -/
theorem dropRepeats_foldl_join {ns : List BlockId} (h : dropRepeats ns = listed ns)
    (edges : List BlockId) : dropRepeats (edges.foldl join ns) = listed (ns ++ edges) := by
  induction edges using List.reverseRecOn with
  | nil => rw [List.foldl_nil, List.append_nil, h]
  | append_singleton edges n ih =>
    rw [← List.append_assoc, listed_concat, ← ih, List.foldl_concat]
    generalize edges.foldl join ns = found
    unfold join
    by_cases hn : n ∈ found
    · rw [if_pos hn, if_pos (mem_dropRepeats.2 hn)]
    · rw [if_neg hn, if_neg (mt mem_dropRepeats.1 hn), dropRepeats_concat hn]

theorem dropRepeats_exitTargets (b : Block) :
    dropRepeats b.exitTargets = listed b.exitTargets := by
  unfold Block.exitTargets
  cases b.exit with
  | single next => cases next <;> rfl
  | branch clauses yes no =>
    cases yes with
    | none => cases no <;> rfl
    | some m =>
      cases no with
      | none => rfl
      | some n => by_cases hm : n = m <;> simp [dropRepeats, listed, join, hm, Ne.symm]

theorem block_foldl_addEdge (edges : List BlockId) (e : BlockEntry) :
    (edges.foldl addEdge e).block = e.block := by
  induction edges generalizing e with
  | nil => rfl
  | cons n edges ih => rw [List.foldl_cons, ih, block_addEdge]

theorem extra_foldl_addEdge (edges : List BlockId) (e : BlockEntry) :
    (edges.foldl addEdge e).extra = edges.foldl join e.extra := by
  induction edges generalizing e with
  | nil => rfl
  | cons n edges ih => rw [List.foldl_cons, ih, extra_addEdge, List.foldl_cons]

/-- **Both ways of leaving out repeats come to one listing.** -/
theorem successors_listed (b : Block) (edges : List BlockId) :
    (edges.foldl addEdge (ofBlock b)).successors = listed (b.exitTargets ++ edges) := by
  rw [successors, block_foldl_addEdge, extra_foldl_addEdge, block_ofBlock]
  refine (congrArg dropRepeats (foldl_join_listed _ edges)).trans ?_
  exact dropRepeats_foldl_join (dropRepeats_exitTargets b) edges

end BlockEntry

namespace Editor

/-! ## Keeping up with the calls -/

namespace Record

variable {r : Record}

theorem extra_note_addEdge {m : BlockId} (hm : m < r.blocks.length) (n k : BlockId) :
    (r.note (.addEdge m n)).extra k = if m = k then r.extra k ++ [n] else r.extra k := by
  rw [note, if_pos hm]
  by_cases hk : m = k <;> simp [extra, List.filter_append, hk]

/-- Edges are added only from blocks that are there. -/
def EdgesStart (r : Record) : Prop := ∀ e ∈ r.edges, e.1 < r.blocks.length

theorem EdgesStart.note (h : r.EdgesStart) (c : Call) : (r.note c).EdgesStart := by
  intro e he
  cases c with
  | addBlock b =>
    rw [Record.note, List.length_append]
    exact Nat.lt_add_right 1 (h e he)
  | replaceBlock n b =>
    have hlt := h e he
    simpa [Record.note] using hlt
  | addEdge m n =>
    rw [Record.note] at he ⊢
    by_cases hm : m < r.blocks.length
    · rw [if_pos hm] at he ⊢
      rcases List.mem_append.1 he with he | he
      · exact h e he
      · rw [List.mem_singleton.1 he]
        exact hm
    · rw [if_neg hm] at he ⊢
      exact h e he
  | setRoot n => exact h e he
  | successors n => exact h e he
  | predecessors n => exact h e he

theorem EdgesStart.extra_eq_nil (h : r.EdgesStart) {n : BlockId} (hn : r.blocks.length ≤ n) :
    r.extra n = [] := by
  have hfilter : r.edges.filter (·.1 = n) = [] := by
    rw [List.filter_eq_nil_iff]
    intro e he heq
    have hlt : n < r.blocks.length := of_decide_eq_true heq ▸ h e he
    exact Nat.not_lt.2 hn hlt
  rw [extra, hfilter, List.map_nil]

end Record

/-- The graph has the blocks that the calls have put in place and the edges that they have added. -/
structure Builds (r : Record) (g : BlockGraph) : Prop where
  start : r.EdgesStart
  entry_eq : ∀ n, g.entries[n]? = r.entry? n

namespace Builds

variable {r : Record} {g : BlockGraph}

theorem size_eq (h : Builds r g) : g.size = r.blocks.length := by
  have hnone : ∀ n, g.size ≤ n ↔ r.blocks.length ≤ n := fun n => by
    rw [BlockGraph.size, ← Array.getElem?_eq_none_iff, h.entry_eq, Record.entry?,
      Option.map_eq_none_iff, List.getElem?_eq_none_iff]
  exact Nat.le_antisymm ((hnone _).2 (Nat.le_refl _)) ((hnone _).1 (Nat.le_refl _))

theorem addBlock (h : Builds r g) (b : Block) : Builds (r.note (.addBlock b)) (g.addBlock b) where
  start := h.start.note _
  entry_eq n := by
    have hsize : g.entries.size = r.blocks.length := h.size_eq
    show (g.entries.push (.ofBlock b))[n]? =
      (r.blocks ++ [b])[n]?.map fun b => (r.extra n).foldl BlockEntry.addEdge (.ofBlock b)
    rw [Array.getElem?_push, hsize, h.entry_eq, Record.entry?]
    by_cases hn : n = r.blocks.length
    · -- a new block has no edges yet
      have hnil := h.start.extra_eq_nil (Nat.le_of_eq hn.symm)
      rw [if_pos hn, hnil]
      simp [hn]
    · have hblock : (r.blocks ++ [b])[n]? = r.blocks[n]? := by
        rcases Nat.lt_or_gt_of_ne hn with hlt | hgt
        · exact List.getElem?_append_left hlt
        · rw [List.getElem?_append_right (Nat.le_of_lt hgt),
            List.getElem?_eq_none (Nat.le_of_lt hgt)]
          exact List.getElem?_eq_none (Nat.sub_pos_of_lt hgt)
      rw [if_neg hn, hblock]

theorem replaceBlock (h : Builds r g) {n : BlockId} (hn : n < r.blocks.length) (b : Block) :
    Builds (r.note (.replaceBlock n b))
      { g with entries := g.entries.modify n fun e => { e with block := b } } where
  start := h.start.note _
  entry_eq k := by
    show (g.entries.modify n _)[k]? =
      (r.blocks.set n b)[k]?.map fun b => (r.extra k).foldl BlockEntry.addEdge (.ofBlock b)
    rw [Array.getElem?_modify, List.getElem?_set, h.entry_eq, Record.entry?]
    by_cases hk : n = k
    · subst hk
      rw [if_pos rfl, if_pos rfl, if_pos hn, List.getElem?_eq_getElem hn]
      refine congrArg some (BlockEntry.ext ?_ ?_)
      · exact (BlockEntry.block_foldl_addEdge (r.extra n) (.ofBlock b)).symm
      · dsimp only
        rw [BlockEntry.extra_foldl_addEdge, BlockEntry.extra_foldl_addEdge]
        rfl
    · rw [if_neg hk, if_neg hk]

theorem addEdge (h : Builds r g) {m : BlockId} (hm : m < r.blocks.length) (n : BlockId) :
    Builds (r.note (.addEdge m n))
      { g with entries := g.entries.modify m fun e => e.addEdge n } where
  start := h.start.note _
  entry_eq k := by
    have hblocks : (r.note (.addEdge m n)).blocks = r.blocks := by rw [Record.note, if_pos hm]
    show (g.entries.modify m _)[k]? = _
    rw [Array.getElem?_modify, h.entry_eq, Record.entry?, Record.entry?, hblocks,
      Record.extra_note_addEdge hm]
    by_cases hk : m = k
    · subst hk
      rw [if_pos rfl, if_pos rfl, Option.map_map]
      simp only [List.foldl_concat, Function.comp_def]
    · rw [if_neg hk, if_neg hk]

/-- Where control can go from a block is what the calls have built. -/
theorem successors_eq (h : Builds r g) (n : BlockId) : g.successors n = r.successors n := by
  rw [BlockGraph.successors, h.entry_eq, Record.entry?, Record.successors]
  cases hn : r.blocks[n]? with
  | none =>
    rw [h.start.extra_eq_nil (List.getElem?_eq_none_iff.1 hn)]
    rfl
  | some b => exact BlockEntry.successors_listed b _

theorem predecessors_eq (h : Builds r g) {n : BlockId} (hn : n < r.blocks.length) :
    g.predecessors n = (List.range r.blocks.length).filter fun m => n ∈ r.successors m := by
  rw [BlockGraph.predecessors_eq_filter (h.size_eq ▸ hn), h.size_eq]
  simp only [h.successors_eq]

end Builds

/-- The editor has what the calls have built, and its table is that of the graph. -/
structure Follows (r : Record) (s : Editor) : Prop where
  builds : Builds r s.graph
  table_eq : ∀ t, s.table? = some t → t = s.graph.predecessorTable

namespace Follows

variable {r : Record} {s : Editor}

theorem of_builds {g : BlockGraph} (h : Builds r g) : Follows r { graph := g } :=
  ⟨h, fun _ ht => by cases ht⟩

theorem table_eq_predecessorTable (h : Follows r s) : s.table = s.graph.predecessorTable := by
  unfold table
  cases ht : s.table? with
  | none => rfl
  | some t => exact h.table_eq t ht

/-- **One call.** The editor keeps up with what is built, and with its table. -/
theorem perform (h : Follows r s) (c : Call) : Follows (r.note c) (s.perform c).2 := by
  cases c with
  | addBlock b => exact of_builds (h.builds.addBlock b)
  | replaceBlock n b =>
    show Follows _ (s.change (s.graph.replaceBlock n b)).2
    unfold BlockGraph.replaceBlock
    by_cases hn : n < r.blocks.length
    · rw [h.builds.size_eq, if_pos hn]
      exact of_builds (h.builds.replaceBlock hn b)
    · have hsame : r.note (.replaceBlock n b) = r := by
        rw [Record.note, List.set_eq_of_length_le (Nat.le_of_not_lt hn)]
      rw [h.builds.size_eq, if_neg hn, hsame]
      exact h
  | addEdge m n =>
    show Follows _ (s.change (s.graph.addEdge m n)).2
    unfold BlockGraph.addEdge
    by_cases hm : m < r.blocks.length
    · rw [h.builds.size_eq, if_pos hm]
      exact of_builds (h.builds.addEdge hm n)
    · have hsame : r.note (.addEdge m n) = r := if_neg hm
      rw [h.builds.size_eq, if_neg hm, hsame]
      exact h
  | setRoot n => exact ⟨⟨h.builds.start, h.builds.entry_eq⟩, h.table_eq⟩
  | successors n => exact h
  | predecessors n =>
    refine ⟨h.builds, fun t ht => ?_⟩
    cases ht
    exact h.table_eq_predecessorTable

/-- **A run.** So it does for any number of calls. -/
theorem run (h : Follows r s) (calls : List Call) :
    Follows (calls.foldl Record.note r) (s.run calls) := by
  induction calls generalizing r s with
  | nil => exact h
  | cons c calls ih => exact ih (h.perform c)

end Follows

/-! ## Answers -/

/-- What an editor has to answer after calls that have built `r`. -/
structure Consistent (r : Record) (s : Editor) : Prop where
  successors : ∀ n, (s.perform (.successors n)).1 = .blocks (r.successors n)
  nodup : ∀ n, (r.successors n).Nodup
  predecessors : ∀ n < r.blocks.length, (s.perform (.predecessors n)).1 =
    .blocks ((List.range r.blocks.length).filter fun m => n ∈ r.successors m)
  replaceBlock_fault : ∀ n b e, (s.perform (.replaceBlock n b)).1 = .fault e ↔
    r.blocks.length ≤ n ∧ e = .unknownNode (BlockGraph.identity n)
  addEdge_fault : ∀ m n e, (s.perform (.addEdge m n)).1 = .fault e ↔
    r.blocks.length ≤ m ∧ e = .unknownNode (BlockGraph.identity m)
  unchanged : ∀ c e, (s.perform c).1 = .fault e → (s.perform c).2 = s

section

variable {s : Editor} {e : Error}

theorem change_fault_iff {p : Prop} [Decidable p] {g : BlockGraph} {e' : Error} :
    (s.change (if p then .ok g else .error e')).1 = .fault e ↔ ¬p ∧ e = e' := by
  by_cases hp : p <;> simp [change, hp, eq_comm]

theorem unchanged_of_fault {c : Call} (h : (s.perform c).1 = .fault e) : (s.perform c).2 = s := by
  have hchange : ∀ x, (s.change x).1 = .fault e → (s.change x).2 = s := by
    intro x hx
    cases x with
    | error _ => rfl
    | ok g => cases hx
  cases c with
  | replaceBlock n b => exact hchange _ h
  | addEdge m n => exact hchange _ h
  | addBlock b => cases h
  | setRoot n => cases h
  | successors n => cases h
  | predecessors n => cases h

end

theorem Follows.consistent {r : Record} {s : Editor} (h : Follows r s) : Consistent r s where
  successors n := congrArg Answer.blocks (h.builds.successors_eq n)
  nodup _ := nodup_listed _
  predecessors n hn := by
    show Answer.blocks (s.table.getD n []) = _
    have htable : s.graph.predecessorTable.getD n [] = s.graph.predecessors n :=
      congrFun s.graph.predecessors_toGraph n
    rw [h.table_eq_predecessorTable, htable, h.builds.predecessors_eq hn]
  replaceBlock_fault n b e := by
    rw [← h.builds.size_eq, ← Nat.not_lt]
    exact change_fault_iff
  addEdge_fault m n e := by
    rw [← h.builds.size_eq, ← Nat.not_lt]
    exact change_fault_iff
  unchanged _ _ := unchanged_of_fault

theorem follows_empty : Follows {} {} :=
  .of_builds ⟨fun _ he => (List.not_mem_nil he).elim, fun _ => rfl⟩

/-- A table that is asked for is not kept beyond the next edge. -/
example :
    let block : Block := { commands := [], exit := .branch [] none (some 0) }
    let s := Editor.run {} [.addBlock block, .addBlock block, .predecessors 0, .addEdge 1 1,
      .replaceBlock 0 { block with exit := .branch [] (some 1) (some 1) }, .addEdge 2 0]
    ((s.perform (.predecessors 1)).1, (s.perform (.successors 0)).1) =
      (.blocks [0, 1], .blocks [1]) := by
  decide +kernel

end Editor
end AdventureLogic
