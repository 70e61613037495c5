import AdventureLogic.Dominance.Numbering
import AdventureLogic.Proofs.Dominance.DepthFirst

/-!
# The walk of a graph is depth first

The walk keeps a stack of visits to be made. At every moment the nodes from
which these visits were noted stand above the node visited last, the upper ones
of the stack below the lower ones, and each unvisited successor of a visited
node is on the stack with a visit from it (`Tracks`). Hence the numbering has
the facts that dominance rests on (`Graph.depthFirst_ofGraph`), and the walk
ends only when no successor is left to be visited (`Graph.walk_closed`).

Key definitions: `Dominance.Numbering.Edge`, `Dominance.Tracks`,
`Dominance.Entered`. Key theorems: `Dominance.Tracks.visit`,
`Graph.depthFirst_ofGraph`, `Graph.walk_closed`.
-/

namespace AdventureLogic

open Dominance

/-! ## Numbers and nodes -/

namespace Graph

theorem mem_fanOut {g : Graph} {unvisited : Std.TreeSet NodeId} {n : NodeId} {e : Visit} :
    e ∈ g.fanOut unvisited n ↔
      e.parent = some n ∧ e.node ∈ g.successors n ∧ e.node ∈ unvisited := by
  rcases e with ⟨m, p⟩
  simp only [fanOut, List.mem_map, List.mem_filter, Std.TreeSet.contains_iff_mem, Visit.mk.injEq]
  constructor
  · rintro ⟨m, ⟨hm, hu⟩, rfl, rfl⟩
    exact ⟨rfl, hm, hu⟩
  · rintro ⟨rfl, hm, hu⟩
    exact ⟨m, ⟨hm, hu⟩, rfl, rfl⟩

/-- A walk visits only nodes that were not visited before, each once. -/
theorem nodup_walkFrom (g : Graph) (unvisited : Std.TreeSet NodeId) (stack : List Visit) :
    ((g.walkFrom unvisited stack).map Visit.node).Nodup ∧
      ∀ n ∈ (g.walkFrom unvisited stack).map Visit.node, n ∈ unvisited := by
  fun_induction walkFrom g unvisited stack with
  | case1 => simp
  | case2 unvisited v stack hv left ih =>
    obtain ⟨hnodup, hmem⟩ := ih
    have hleft : ∀ n ∈ left, v.node ≠ n ∧ n ∈ unvisited := fun n hn => by
      simpa [left] using hn
    constructor
    · rw [List.map_cons, List.nodup_cons]
      exact ⟨fun hn => (hleft _ (hmem _ hn)).1 rfl, hnodup⟩
    · intro n hn
      rcases List.mem_cons.1 hn with rfl | hn
      · exact hv
      · exact (hleft n (hmem n hn)).2
  | case3 unvisited v stack hv ih => exact ih

theorem nodup_walk (g : Graph) : (g.walk.map Visit.node).Nodup := (g.nodup_walkFrom _ _).1

theorem lt_size_of_mem_walk {g : Graph} {n : NodeId} (hn : n ∈ g.walk.map Visit.node) :
    n < g.size := by
  simpa [nodes] using (g.nodup_walkFrom _ _).2 n hn

end Graph

namespace Dominance

namespace Numbering

/-- An edge of the graph between numbered nodes. -/
def Edge (d : Numbering) (g : Graph) (u v : Nat) : Prop :=
  u < d.count ∧ v < d.count ∧ d.vertexOf v ∈ g.successors (d.vertexOf u)

/-- The number of the node that a visit is made from; 0 for the root. -/
def origin (d : Numbering) (e : Visit) : Nat := (e.parent.bind d.number?).getD 0

variable {g : Graph} {w : Nat} {n : NodeId}

theorem count_ofGraph (g : Graph) : (ofGraph g).count = g.walk.length := by
  simp [count, NodeOrder.size, ofGraph]

theorem vertexOf_ofGraph {e : Visit} (he : g.walk[w]? = some e) :
    (ofGraph g).vertexOf w = e.node := by
  simp [vertexOf, NodeOrder.nodeAt, ofGraph, Array.getD_eq_getD_getElem?, he]

theorem parentOf_ofGraph {e : Visit} (he : g.walk[w]? = some e) :
    (ofGraph g).parentOf w = (ofGraph g).origin e := by
  have hparent : (ofGraph g).parent[w]? = some ((ofGraph g).origin e) := by
    rw [ofGraph, List.getElem?_toArray, List.getElem?_map, he]
    rfl
  rw [parentOf, Array.getD_eq_getD_getElem?, hparent, Option.getD_some]

theorem parentOf_of_le (hw : (ofGraph g).count ≤ w) : (ofGraph g).parentOf w = 0 := by
  rw [count_ofGraph] at hw
  simp [parentOf, ofGraph, Array.getD_eq_getD_getElem?, hw]

/-- The number of a node is where the walk visits it. -/
theorem number?_ofGraph :
    (ofGraph g).number? n = some w ↔ w < (ofGraph g).count ∧ (ofGraph g).vertexOf w = n := by
  have hnumber : (ofGraph g).number? n = (g.walk.map Visit.node).idxOf? n := by
    rw [number?, NodeOrder.place?_eq]
    exact List.idxOf?_toArray n _
  rw [hnumber, List.idxOf?_eq_some_iff, count_ofGraph]
  constructor
  · rintro ⟨hw, hn, -⟩
    have hw : w < g.walk.length := by simpa using hw
    refine ⟨hw, ?_⟩
    rw [vertexOf_ofGraph (List.getElem?_eq_getElem hw)]
    simpa using hn
  · rintro ⟨hw, hn⟩
    rw [vertexOf_ofGraph (List.getElem?_eq_getElem hw)] at hn
    have hat : (g.walk.map Visit.node)[w]? = some n := by
      rw [List.getElem?_map, List.getElem?_eq_getElem hw, Option.map_some, hn]
    obtain ⟨hlt, hn⟩ := List.getElem?_eq_some_iff.1 hat
    refine ⟨hlt, hn, fun j hj hjn => ?_⟩
    have := (List.getElem_inj g.nodup_walk).1 (hjn.trans hn.symm)
    omega

theorem vertexOf_inj {v : Nat} (hv : v < (ofGraph g).count) (hw : w < (ofGraph g).count)
    (h : (ofGraph g).vertexOf v = (ofGraph g).vertexOf w) : v = w := by
  have hv := number?_ofGraph.2 ⟨hv, h⟩
  rw [number?_ofGraph.2 ⟨hw, rfl⟩] at hv
  exact (Option.some.inj hv).symm

theorem vertexOf_lt_size (hw : w < (ofGraph g).count) : (ofGraph g).vertexOf w < g.size := by
  rw [count_ofGraph] at hw
  rw [vertexOf_ofGraph (List.getElem?_eq_getElem hw)]
  exact Graph.lt_size_of_mem_walk (List.mem_map_of_mem (List.getElem_mem hw))

end Numbering

/-! ## The state of the walk -/

/-- What is so when the walk has visited `k` nodes, with `d` the numbering it leads to. -/
structure Tracks (g : Graph) (d : Numbering) (k : Nat) (unvisited : Std.TreeSet NodeId)
    (stack : List Visit) : Prop where
  mem_unvisited : ∀ n, n ∈ unvisited ↔ n < g.size ∧ ∀ j < k, d.vertexOf j ≠ n
  /-- The visits on the stack lead from nodes that stand above the one visited last. -/
  entry : ∀ e ∈ stack, d.origin e < k ∧ e.node ∈ g.successors (d.vertexOf (d.origin e)) ∧
    Above d.parentOf (d.origin e) (k - 1)
  nested : stack.Pairwise fun e e' => Above d.parentOf (d.origin e') (d.origin e)
  /-- No unvisited successor of a visited node is forgotten. -/
  pending : ∀ j < k, ∀ n ∈ g.successors (d.vertexOf j), n ∈ unvisited →
    ∃ e ∈ stack, e.node = n ∧ d.origin e = j

/-- What is so of the number of a node that was entered from another. -/
structure Entered (g : Graph) (d : Numbering) (k : Nat) : Prop where
  parent_lt : d.parentOf k < k
  edge : d.vertexOf k ∈ g.successors (d.vertexOf (d.parentOf k))
  last : Above d.parentOf (d.parentOf k) (k - 1)
  forward : ∀ j < k, d.vertexOf k ∈ g.successors (d.vertexOf j) → Above d.parentOf j k

/-- The numbering records the visit `e` as the one with the number `k`. -/
structure Records (d : Numbering) (k : Nat) (e : Visit) : Prop where
  vertex : d.vertexOf k = e.node
  number : d.number? e.node = some k
  parent : d.parentOf k = d.origin e

theorem records_ofGraph {g : Graph} {k : Nat} {e : Visit} (he : g.walk[k]? = some e) :
    Records (.ofGraph g) k e where
  vertex := Numbering.vertexOf_ofGraph he
  number := by
    rw [Numbering.number?_ofGraph, Numbering.count_ofGraph]
    exact ⟨(List.getElem?_eq_some_iff.1 he).1, Numbering.vertexOf_ofGraph he⟩
  parent := Numbering.parentOf_ofGraph he

namespace Tracks

variable {g : Graph} {d : Numbering} {k : Nat} {unvisited : Std.TreeSet NodeId} {stack : List Visit} {e : Visit}

/-- A visit to a node that was visited before is passed over. -/
theorem skip (h : Tracks g d k unvisited (e :: stack)) (he : e.node ∉ unvisited) :
    Tracks g d k unvisited stack where
  mem_unvisited := h.mem_unvisited
  entry x hx := h.entry x (List.mem_cons_of_mem e hx)
  nested := (List.pairwise_cons.1 h.nested).2
  pending j hj n hn hu := by
    obtain ⟨x, hx, rfl, hjx⟩ := h.pending j hj n hn hu
    rcases List.mem_cons.1 hx with rfl | hx
    · exact absurd hu he
    · exact ⟨x, hx, rfl, hjx⟩

/-- A visited node puts its unvisited successors on a stack whose visits lead from above it. -/
theorem push (hk : Records d k e)
    (hmem : ∀ n, n ∈ unvisited ↔ n < g.size ∧ ∀ j < k, d.vertexOf j ≠ n)
    (hentry : ∀ x ∈ stack, d.origin x < k ∧ x.node ∈ g.successors (d.vertexOf (d.origin x)) ∧
      Above d.parentOf (d.origin x) k)
    (hnested : stack.Pairwise fun x y => Above d.parentOf (d.origin y) (d.origin x))
    (hpending : ∀ j < k, ∀ n ∈ g.successors (d.vertexOf j), n ∈ unvisited.erase e.node →
      ∃ x ∈ stack, x.node = n ∧ d.origin x = j) :
    Tracks g d (k + 1) (unvisited.erase e.node)
      (g.fanOut (unvisited.erase e.node) e.node ++ stack) := by
  have horigin : ∀ x ∈ g.fanOut (unvisited.erase e.node) e.node, d.origin x = k := by
    intro x hx
    rw [Numbering.origin, (Graph.mem_fanOut.1 hx).1, Option.bind_some, hk.number, Option.getD_some]
  constructor
  case mem_unvisited =>
    intro n
    rw [Std.TreeSet.mem_erase, hmem]
    simp only [ne_eq, Std.LawfulEqCmp.compare_eq_iff_eq, Nat.forall_lt_succ_right, hk.vertex]
    exact ⟨fun h => ⟨h.2.1, h.2.2, h.1⟩, fun h => ⟨h.2.2, h.1, h.2.1⟩⟩
  case entry =>
    intro x hx
    rcases List.mem_append.1 hx with hx | hx
    · rw [horigin x hx, hk.vertex]
      exact ⟨by omega, (Graph.mem_fanOut.1 hx).2.1, .self⟩
    · obtain ⟨hlt, hedge, habove⟩ := hentry x hx
      exact ⟨by omega, hedge, habove⟩
  case nested =>
    refine List.pairwise_append.2 ⟨?_, hnested, fun x hx y hy => ?_⟩
    · refine List.pairwise_of_forall_mem_list fun x hx y hy => ?_
      rw [horigin x hx, horigin y hy]
      exact .self
    · rw [horigin x hx]
      exact (hentry y hy).2.2
  case pending =>
    intro j hj n hn hu
    by_cases hjk : j = k
    · subst hjk
      rw [hk.vertex] at hn
      have hx : ⟨n, some e.node⟩ ∈ g.fanOut (unvisited.erase e.node) e.node :=
        Graph.mem_fanOut.2 ⟨rfl, hn, hu⟩
      exact ⟨_, List.mem_append_left _ hx, rfl, horigin _ hx⟩
    · obtain ⟨x, hx, hxn, hxj⟩ := hpending j (by omega) n hn hu
      exact ⟨x, List.mem_append_right _ hx, hxn, hxj⟩

/-- **One step.** A node that is visited is entered as a depth-first walk enters it. -/
theorem visit (h : Tracks g d k unvisited (e :: stack)) (he : e.node ∈ unvisited)
    (hk : Records d k e) :
    Entered g d k ∧ Tracks g d (k + 1) (unvisited.erase e.node)
      (g.fanOut (unvisited.erase e.node) e.node ++ stack) := by
  obtain ⟨hlt, hedge, hlast⟩ := h.entry e List.mem_cons_self
  obtain ⟨hbelow, hnested⟩ := List.pairwise_cons.1 h.nested
  have hup : ∀ {j}, Above d.parentOf j (d.origin e) → Above d.parentOf j k := fun hj =>
    .up (by omega) (hk.parent.symm ▸ hj)
  constructor
  · rw [← hk.parent] at hlt hedge hlast
    refine ⟨hlt, hk.vertex.symm ▸ hedge, hlast, fun j hj hn => hup ?_⟩
    rw [hk.vertex] at hn
    obtain ⟨x, hx, -, rfl⟩ := h.pending j hj _ hn he
    rcases List.mem_cons.1 hx with rfl | hx
    · exact .self
    · exact hbelow x hx
  · refine push hk h.mem_unvisited (fun x hx => ?_) hnested (fun j hj n hn hu => ?_)
    · obtain ⟨hxlt, hxedge, -⟩ := h.entry x (List.mem_cons_of_mem e hx)
      exact ⟨hxlt, hxedge, hup (hbelow x hx)⟩
    · have hu : e.node ≠ n ∧ n ∈ unvisited := by simpa using hu
      obtain ⟨x, hx, rfl, hxj⟩ := h.pending j hj n hn hu.2
      rcases List.mem_cons.1 hx with rfl | hx
      · exact absurd rfl hu.1
      · exact ⟨x, hx, rfl, hxj⟩

/-- All steps: when the stack is empty every node was entered so, and no successor is left out. -/
theorem run (h : Tracks g (.ofGraph g) k unvisited stack) (hk : k ≤ g.walk.length)
    (hdrop : g.walk.drop k = g.walkFrom unvisited stack) :
    (∀ i, k ≤ i → i < g.walk.length → Entered g (.ofGraph g) i) ∧
      ∀ j < g.walk.length, ∀ n ∈ g.successors ((Numbering.ofGraph g).vertexOf j), n < g.size →
        ∃ i < g.walk.length, (Numbering.ofGraph g).vertexOf i = n := by
  fun_induction Graph.walkFrom g unvisited stack generalizing k
  case case1 unvisited =>
    have hlen := List.drop_eq_nil_iff.1 hdrop
    refine ⟨fun i hi hlt => by omega, fun j hj n hn hsize => ?_⟩
    by_cases hu : n ∈ unvisited
    · obtain ⟨e, he, -⟩ := h.pending j (by omega) n hn hu
      cases he
    · have hseen := (not_congr (h.mem_unvisited n)).1 hu
      simp only [hsize, true_and, ne_eq, Classical.not_forall, Classical.not_not] at hseen
      obtain ⟨i, hi, hin⟩ := hseen
      exact ⟨i, by omega, hin⟩
  case case2 unvisited e stack he left ih =>
    have hget : g.walk[k]? = some e := by
      rw [← List.head?_drop, hdrop, List.head?_cons]
    have hnext : g.walk.drop (k + 1) = g.walkFrom left (g.fanOut left e.node ++ stack) := by
      rw [← List.tail_drop, hdrop, List.tail_cons]
    obtain ⟨hentered, htracks⟩ := h.visit he (records_ofGraph hget)
    have hlt := (List.getElem?_eq_some_iff.1 hget).1
    obtain ⟨hrest, hclosed⟩ := ih htracks hlt hnext
    refine ⟨fun i hi hlt => ?_, hclosed⟩
    by_cases hik : i = k
    · exact hik ▸ hentered
    · exact hrest i (by omega) hlt
  case case3 unvisited e stack he ih => exact ih (h.skip he) hk hdrop

end Tracks
end Dominance

/-! ## The whole walk -/

namespace Graph

variable {g : Graph}

theorem walk_eq_nil (h : ¬g.root < g.size) : g.walk = [] := by
  rw [walk, walkFrom, if_neg (by simpa [nodes] using h), walkFrom]

/-- A graph whose root exists is walked from there. -/
theorem walk_eq_cons (h : g.root < g.size) :
    g.walk = ⟨g.root, none⟩ :: g.walkFrom ((Std.TreeSet.ofList g.nodes).erase g.root)
      (g.fanOut ((Std.TreeSet.ofList g.nodes).erase g.root) g.root ++ []) := by
  rw [walk, walkFrom, if_pos (by simpa [nodes] using h)]

theorem root_lt_size (h : 0 < (Numbering.ofGraph g).count) : g.root < g.size := by
  apply Nat.lt_of_not_le
  intro hle
  rw [Numbering.count_ofGraph, walk_eq_nil (Nat.not_lt.2 hle)] at h
  exact Nat.lt_irrefl 0 h

/-- The root has the number 0. -/
theorem number?_root (h : g.root < g.size) : (Numbering.ofGraph g).number? g.root = some 0 :=
  (records_ofGraph (e := ⟨g.root, none⟩) (by rw [walk_eq_cons h]; rfl)).number

theorem tracks_root (h : g.root < g.size) :
    Tracks g (.ofGraph g) 1 ((Std.TreeSet.ofList g.nodes).erase g.root)
      (g.fanOut ((Std.TreeSet.ofList g.nodes).erase g.root) g.root ++ []) := by
  have hrecords : Records (.ofGraph g) 0 ⟨g.root, none⟩ :=
    records_ofGraph (by rw [walk_eq_cons h]; rfl)
  refine Tracks.push hrecords (fun n => ?_) (fun x hx => ?_) .nil (fun j hj => by omega)
  · simp [nodes]
  · cases hx

theorem run_root (h : g.root < g.size) :
    (∀ i, 1 ≤ i → i < g.walk.length → Entered g (.ofGraph g) i) ∧
      ∀ j < g.walk.length, ∀ n ∈ g.successors ((Numbering.ofGraph g).vertexOf j), n < g.size →
        ∃ i < g.walk.length, (Numbering.ofGraph g).vertexOf i = n := by
  refine (tracks_root h).run ?_ ?_
  · rw [walk_eq_cons h]
    exact Nat.succ_le_succ (Nat.zero_le _)
  · rw [walk_eq_cons h]
    rfl

/-- The walk leaves out no node that an edge leads to. -/
theorem walk_closed {j : Nat} (hj : j < (Numbering.ofGraph g).count) {n : NodeId}
    (hn : n ∈ g.successors ((Numbering.ofGraph g).vertexOf j)) (hsize : n < g.size) :
    ∃ i < (Numbering.ofGraph g).count, (Numbering.ofGraph g).vertexOf i = n := by
  have hroot := root_lt_size (Nat.lt_of_le_of_lt (Nat.zero_le j) hj)
  rw [Numbering.count_ofGraph] at hj ⊢
  exact (run_root hroot).2 j hj n hn hsize

/-- **The walk is depth first.** -/
theorem depthFirst_ofGraph (g : Graph) :
    DepthFirst (Numbering.ofGraph g).count ((Numbering.ofGraph g).Edge g)
      (Numbering.ofGraph g).parentOf := by
  have hentered : ∀ w, 0 < w → w < (Numbering.ofGraph g).count → Entered g (.ofGraph g) w := by
    intro w hw hc
    have hroot : g.root < g.size := root_lt_size (by omega)
    rw [Numbering.count_ofGraph] at hc
    exact (run_root hroot).1 w hw hc
  constructor
  case up_lt =>
    intro w hw
    by_cases hc : w < (Numbering.ofGraph g).count
    · exact (hentered w hw hc).parent_lt
    · rw [Numbering.parentOf_of_le (by omega)]
      exact hw
  case edge_up =>
    intro w hw hc
    have he := hentered w hw hc
    exact ⟨Nat.lt_trans he.parent_lt hc, hc, he.edge⟩
  case lt_count => exact fun e => ⟨e.1, e.2.1⟩
  case above_last => exact fun w hw hc => (hentered w hw hc).last
  case above_edge => exact fun e hlt => (hentered _ (by omega) e.2.1).forward _ hlt e.2.2

end Graph
end AdventureLogic
