import AdventureLogic.Proofs.Dominance.Paths

/-!
# The walk is the recursive search

A depth-first search is best said by recursion: who enters a node that was not
reported before reports it and then enters its successors, one after the other
(`Graph.enterAll`). The walk keeps a stack instead. A node may stand on the stack
several times, with different parents, and successors that were visited already
are not even put there; still the walk makes the reports of the recursion, in
the same order and with the same parents (`Graph.walk_eq_search`). The recursion
does not look at the rest of the stack, so the stack can be cut off below what is
being entered (`Graph.walkFrom_enterAll`), and a visit to a node that was
visited before changes nothing (`Graph.walkFrom_filter`).

What dominance needs follows for the reports themselves: the nodes reported are
those that can be reached, a parent comes before its child, and an edge to a node
that is reported later leads down the tree of the parents
(`Graph.ReportsDepthFirst`).

Key definitions: `Graph.enterAll`, `Graph.search`, `Graph.Ancestor`,
`Graph.ReportsDepthFirst`. Key theorems: `Graph.walkFrom_enterAll`,
`Graph.walk_eq_search`, `Graph.walk_reports_depthFirst`.
-/

namespace AdventureLogic

open Dominance

namespace Graph

/-! ## The recursion -/

/-- How many nodes have not been reported. -/
def unreported (g : Graph) (report : List Visit) : Nat :=
  (g.nodes.filter fun n => n ∉ report.map Visit.node).length

theorem mem_map_append_visit {report : List Visit} {v : Visit} {n : NodeId} :
    n ∈ (report ++ [v]).map Visit.node ↔ n = v.node ∨ n ∈ report.map Visit.node := by
  rw [List.map_append, List.mem_append, List.map_singleton, List.mem_singleton, or_comm]

theorem unreported_append_lt {g : Graph} {report : List Visit} {v : Visit} (hv : v.node < g.size)
    (hnew : v.node ∉ report.map Visit.node) :
    g.unreported (report ++ [v]) < g.unreported report := by
  have hfilter : (g.nodes.filter fun n => n ∉ (report ++ [v]).map Visit.node) =
      (g.nodes.filter fun n => n ∉ report.map Visit.node).filter fun n => n ≠ v.node := by
    rw [List.filter_filter]
    refine List.filter_congr fun n _ => ?_
    simp only [mem_map_append_visit, not_or, ne_eq, Bool.decide_and]
  rw [unreported, hfilter, unreported, List.length_filter_lt_length_iff_exists]
  refine ⟨v.node, List.mem_filter.2 ⟨List.mem_range.2 hv, by simpa using hnew⟩, by simp⟩

/-- Enters the nodes `ns` from `parent`, one after the other, when `report` has been made. A node
that does not exist or was reported before is passed over. Any other node is reported, and its
successors are entered from it before the next of `ns` is. The result is the whole report; it never
leaves more nodes unreported than there were. -/
def enterAll (g : Graph) (report : List Visit) (parent : Option NodeId) (ns : List NodeId) :
    { r : List Visit // g.unreported r ≤ g.unreported report } :=
  match ns with
  | [] => ⟨report, Nat.le_refl _⟩
  | n :: ns =>
    if h : n < g.size ∧ n ∉ report.map Visit.node then
      have hlt := @unreported_append_lt g report ⟨n, parent⟩ h.1 h.2
      let below := enterAll g (report ++ [⟨n, parent⟩]) (some n) (g.successors n)
      let after := enterAll g below.1 parent ns
      ⟨after.1, Nat.le_trans after.2 (Nat.le_trans below.2 (Nat.le_of_lt hlt))⟩
    else enterAll g report parent ns
termination_by (g.unreported report, ns.length)
decreasing_by
  · exact Prod.Lex.left _ _ hlt
  · exact Prod.Lex.left _ _ (Nat.lt_of_le_of_lt below.2 hlt)
  · exact Prod.Lex.right _ (by simp)

/-- The report of the recursive search that enters the root. -/
def search (g : Graph) : List Visit := (g.enterAll [] none [g.root]).1

/-! ## The stack -/

variable {g : Graph}

/-- Visits to nodes that were visited before can be taken from the stack. -/
theorem walkFrom_filter {keep : Visit → Bool} {unvisited : Std.TreeSet NodeId} {stack : List Visit}
    (hkeep : ∀ v, v.node ∈ unvisited → keep v = true) :
    g.walkFrom unvisited (stack.filter keep) = g.walkFrom unvisited stack := by
  fun_induction walkFrom g unvisited stack with
  | case1 => rw [List.filter_nil, walkFrom]
  | case2 unvisited v stack hv left ih =>
    have hleft : ∀ w, w.node ∈ left → keep w = true := fun w hw =>
      hkeep w (Std.TreeSet.mem_of_mem_erase hw)
    have hfan : (g.fanOut left v.node).filter keep = g.fanOut left v.node :=
      List.filter_eq_self.2 fun w hw => hleft w (mem_fanOut.1 hw).2.2
    rw [List.filter_cons_of_pos (hkeep v hv), walkFrom, if_pos hv, ← ih hleft, List.filter_append,
      hfan]
  | case3 unvisited v stack hv ih =>
    by_cases hk : keep v = true
    · rw [List.filter_cons_of_pos hk, walkFrom, if_neg hv, ih hkeep]
    · rw [List.filter_cons_of_neg hk, ih hkeep]

/-- It makes no difference whether a node puts all its successors on the stack. -/
theorem walkFrom_fanOut (left : Std.TreeSet NodeId) (n : NodeId) (stack : List Visit) :
    g.walkFrom left (g.fanOut left n ++ stack) =
      g.walkFrom left ((g.successors n).map (fun s => ⟨s, some n⟩) ++ stack) := by
  have hkeep : ∀ v : Visit, v.node ∈ left → left.contains v.node = true := fun v hv => hv
  have hfan : g.fanOut left n =
      ((g.successors n).map fun s => (⟨s, some n⟩ : Visit)).filter fun v => left.contains v.node := by
    rw [fanOut, List.filter_map]
    rfl
  have hsame : (g.fanOut left n ++ stack).filter (fun v => left.contains v.node) =
      ((g.successors n).map (fun s => (⟨s, some n⟩ : Visit)) ++ stack).filter
        fun v => left.contains v.node := by
    rw [List.filter_append, List.filter_append, hfan, List.filter_filter]
    simp only [Bool.and_self]
  rw [← walkFrom_filter hkeep, hsame, walkFrom_filter hkeep]

/-- A node that has not been visited is, and then its successors are entered. -/
theorem walkFrom_visit {unvisited : Std.TreeSet NodeId} {v : Visit} (hv : v.node ∈ unvisited)
    (stack : List Visit) :
    g.walkFrom unvisited (v :: stack) =
      v :: g.walkFrom (unvisited.erase v.node)
        ((g.successors v.node).map (fun s => ⟨s, some v.node⟩) ++ stack) := by
  rw [walkFrom, if_pos hv, ← walkFrom_fanOut]

theorem walkFrom_skip {unvisited : Std.TreeSet NodeId} {v : Visit} (hv : v.node ∉ unvisited)
    (stack : List Visit) : g.walkFrom unvisited (v :: stack) = g.walkFrom unvisited stack := by
  rw [walkFrom, if_neg hv]

/-- The unvisited nodes are those that exist and are not in the report. -/
def Leaves (g : Graph) (report : List Visit) (unvisited : Std.TreeSet NodeId) : Prop :=
  ∀ n, n ∈ unvisited ↔ n < g.size ∧ n ∉ report.map Visit.node

theorem Leaves.visit {report : List Visit} {unvisited : Std.TreeSet NodeId}
    (h : g.Leaves report unvisited) (v : Visit) :
    g.Leaves (report ++ [v]) (unvisited.erase v.node) := by
  intro n
  rw [Std.TreeSet.mem_erase, h n, mem_map_append_visit, not_or, ne_eq,
    Std.LawfulEqCmp.compare_eq_iff_eq, eq_comm, and_left_comm]

/-- **The stack does what the recursion does.** With nodes to be entered on top of a stack, the walk
goes on as the recursion does, and then with the rest of the stack. -/
theorem walkFrom_enterAll (report : List Visit) (parent : Option NodeId) (ns : List NodeId) :
    ∀ {unvisited : Std.TreeSet NodeId}, g.Leaves report unvisited → ∀ stack : List Visit,
      ∃ left, g.Leaves (g.enterAll report parent ns).1 left ∧
        report ++ g.walkFrom unvisited (ns.map (fun n => ⟨n, parent⟩) ++ stack) =
          (g.enterAll report parent ns).1 ++ g.walkFrom left stack := by
  fun_induction enterAll g report parent ns with
  | case1 => exact fun {unvisited} h stack => ⟨unvisited, h, rfl⟩
  | case2 report parent n ns hnew hlt below after ihbelow ihafter =>
    intro unvisited h stack
    have hn : n ∈ unvisited := (h n).2 hnew
    obtain ⟨mid, hmid, hwalk⟩ :=
      ihbelow (h.visit ⟨n, parent⟩) (ns.map (fun n => ⟨n, parent⟩) ++ stack)
    obtain ⟨left, hleft, hrest⟩ := ihafter hmid stack
    refine ⟨left, hleft, ?_⟩
    calc report ++ g.walkFrom unvisited (⟨n, parent⟩ :: (ns.map (fun n => ⟨n, parent⟩) ++ stack))
      _ = (report ++ [⟨n, parent⟩]) ++ g.walkFrom (unvisited.erase n)
            ((g.successors n).map (fun s => ⟨s, some n⟩) ++
              (ns.map (fun n => ⟨n, parent⟩) ++ stack)) := by
        rw [walkFrom_visit hn, List.append_assoc, List.singleton_append]
      _ = below.1 ++ g.walkFrom mid (ns.map (fun n => ⟨n, parent⟩) ++ stack) := hwalk
      _ = after.1 ++ g.walkFrom left stack := hrest
  | case3 report parent n ns hold ih =>
    intro unvisited h stack
    have hn : n ∉ unvisited := mt (h n).1 hold
    obtain ⟨left, hleft, hwalk⟩ := ih h stack
    refine ⟨left, hleft, ?_⟩
    rw [List.map_cons, List.cons_append, walkFrom_skip hn, hwalk]

/-- **The walk makes the report of the recursive search.** -/
theorem walk_eq_search (g : Graph) : g.walk = g.search := by
  have hstart : g.Leaves [] (.ofList g.nodes) := fun n => by simp [nodes]
  obtain ⟨left, _, hwalk⟩ := walkFrom_enterAll [] none [g.root] hstart []
  calc g.walk = (g.enterAll [] none [g.root]).1 ++ g.walkFrom left [] := hwalk
    _ = g.search := by rw [walkFrom, List.append_nil, search]

/-! ## The tree of the parents -/

/-- `a` is `b` or an ancestor of `b`, by the parents in a report. -/
inductive Ancestor (report : List Visit) (a : NodeId) : NodeId → Prop
  | self : Ancestor report a a
  | child {p n : NodeId} : Ancestor report a p → ⟨n, some p⟩ ∈ report → Ancestor report a n

/-- What a depth-first report of a graph has to say. -/
structure ReportsDepthFirst (g : Graph) (report : List Visit) : Prop where
  mem_iff : ∀ n, n ∈ report.map Visit.node ↔ g.Reachable n
  nodup : (report.map Visit.node).Nodup
  root : ∀ v ∈ report, v.parent = none ↔ v.node = g.root
  /-- A parent is reported before its child, and an edge leads from it. -/
  parent : ∀ (i : Nat) (v : Visit) (p : NodeId), report[i]? = some v → v.parent = some p →
    v.node ∈ g.successors p ∧ ∃ j < i, report[j]?.map Visit.node = some p
  /-- An edge to a node that is reported later leads to a descendant. -/
  descendant : ∀ (i j : Nat) (m n : NodeId), report[i]?.map Visit.node = some m →
    report[j]?.map Visit.node = some n → i < j → n ∈ g.successors m → Ancestor report m n

/-- Every visit was on the stack or was made from a node that is visited. -/
theorem parent_walkFrom {unvisited : Std.TreeSet NodeId} {stack : List Visit} {v : Visit}
    (hv : v ∈ g.walkFrom unvisited stack) :
    v ∈ stack ∨ ∃ p ∈ g.walkFrom unvisited stack, v.parent = some p.node := by
  fun_induction walkFrom g unvisited stack with
  | case1 => cases hv
  | case2 unvisited e stack he left ih =>
    rcases List.mem_cons.1 hv with rfl | hv
    · exact .inl List.mem_cons_self
    rcases ih hv with hstack | ⟨p, hp, hparent⟩
    · rcases List.mem_append.1 hstack with hfan | hstack
      · exact .inr ⟨e, List.mem_cons_self, (mem_fanOut.1 hfan).1⟩
      · exact .inl (List.mem_cons_of_mem e hstack)
    · exact .inr ⟨p, List.mem_cons_of_mem e hp, hparent⟩
  | case3 unvisited e stack he ih =>
    exact (ih hv).imp_left (List.mem_cons_of_mem e)

/-- All visits but that of the root are recorded with the node of the parent's number. -/
theorem walk_getElem? {w : Nat} (h0 : 0 < w) (hw : w < (Numbering.ofGraph g).count) :
    g.walk[w]? = some ⟨(Numbering.ofGraph g).vertexOf w,
      some ((Numbering.ofGraph g).vertexOf ((Numbering.ofGraph g).parentOf w))⟩ := by
  rw [Numbering.count_ofGraph] at hw
  have hget := List.getElem?_eq_getElem hw
  have hrecords := records_ofGraph hget
  generalize g.walk[w] = v at hget hrecords
  -- the root is visited first, so this visit has a parent
  have hparent : ∃ p ∈ g.walk, v.parent = some p.node := by
    refine (parent_walkFrom (List.mem_of_getElem? hget)).resolve_left fun hroot => ?_
    obtain rfl := List.mem_singleton.1 hroot
    have hsize := lt_size_of_mem_walk (List.mem_map_of_mem (List.mem_of_getElem? hget))
    have hzero := hrecords.number.symm.trans (number?_root hsize)
    exact Nat.ne_of_gt h0 (Option.some.inj hzero)
  obtain ⟨p, hp, hparent⟩ := hparent
  obtain ⟨j, hj⟩ := List.getElem?_of_mem hp
  have horigin : (Numbering.ofGraph g).origin v = j := by
    rw [Numbering.origin, hparent, Option.bind_some, (records_ofGraph hj).number, Option.getD_some]
  rw [hget, hrecords.parent, horigin, hrecords.vertex, (records_ofGraph hj).vertex, ← hparent]

/-- What stands above a number stands above its node in the tree of the parents. -/
theorem ancestor_of_above {a b : Nat} (h : Above (Numbering.ofGraph g).parentOf a b)
    (hb : b < (Numbering.ofGraph g).count) :
    Ancestor g.walk ((Numbering.ofGraph g).vertexOf a) ((Numbering.ofGraph g).vertexOf b) := by
  induction h with
  | self => exact .self
  | @up b hpos _ ih =>
    have hlt := g.depthFirst_ofGraph.up_lt b hpos
    exact .child (ih (by omega)) (List.mem_of_getElem? (walk_getElem? hpos hb))

theorem getElem?_walk_eq_some {i : Nat} {n : NodeId} :
    g.walk[i]?.map Visit.node = some n ↔
      i < (Numbering.ofGraph g).count ∧ (Numbering.ofGraph g).vertexOf i = n := by
  rw [Numbering.count_ofGraph]
  by_cases hi : i < g.walk.length
  · have hget := List.getElem?_eq_getElem hi
    simp [Numbering.vertexOf_ofGraph hget, hi]
  · simp [hi]

/-- Only the first visit is made from no node. -/
theorem parent_eq_none_iff {i : Nat} {v : Visit} (hv : g.walk[i]? = some v) :
    v.parent = none ↔ i = 0 := by
  have hi := (List.getElem?_eq_some_iff.1 hv).1
  rw [← Numbering.count_ofGraph] at hi
  constructor
  · intro hnone
    apply Nat.eq_zero_of_not_pos
    intro hpos
    have hget := (walk_getElem? hpos hi).symm.trans hv
    cases hget
    cases hnone
  · rintro rfl
    rw [walk_eq_cons (root_lt_size hi)] at hv
    cases hv
    rfl

theorem parent_of_walk {i : Nat} {v : Visit} {p : NodeId} (hv : g.walk[i]? = some v)
    (hp : v.parent = some p) :
    v.node ∈ g.successors p ∧ ∃ j < i, g.walk[j]?.map Visit.node = some p := by
  have hi := (List.getElem?_eq_some_iff.1 hv).1
  rw [← Numbering.count_ofGraph] at hi
  have hpos : 0 < i := by
    apply Nat.pos_of_ne_zero
    intro h0
    rw [(parent_eq_none_iff hv).2 h0] at hp
    cases hp
  have hget := (walk_getElem? hpos hi).symm.trans hv
  cases hget
  cases hp
  have hlt := g.depthFirst_ofGraph.up_lt i hpos
  exact ⟨(g.depthFirst_ofGraph.edge_up i hpos hi).2.2, _, hlt,
    getElem?_walk_eq_some.2 ⟨by omega, rfl⟩⟩

/-- **The walk is the recursive depth-first search.** For every graph, whatever its edges and its
root name, the walk makes the report of the recursion. So it reports each node that can be reached
once, a parent before its children, and an edge to a node that is reported later leads down the
tree of the parents. -/
theorem walk_reports_depthFirst (g : Graph) : g.walk = g.search ∧ g.ReportsDepthFirst g.walk := by
  refine ⟨g.walk_eq_search, ?_⟩
  constructor
  case mem_iff => exact fun n => mem_preorder_iff
  case nodup => exact g.nodup_walk
  case root =>
    intro v hv
    obtain ⟨i, hi⟩ := List.getElem?_of_mem hv
    have hcount := (List.getElem?_eq_some_iff.1 hi).1
    rw [← Numbering.count_ofGraph] at hcount
    have hroot := root_lt_size (Nat.lt_of_le_of_lt (Nat.zero_le i) hcount)
    rw [parent_eq_none_iff hi, ← Numbering.vertexOf_ofGraph hi, ← vertexOf_zero hroot]
    exact ⟨fun h => h ▸ rfl, Numbering.vertexOf_inj hcount (by omega)⟩
  case parent => exact fun i v p hv hp => parent_of_walk hv hp
  case descendant =>
    intro i j m n hm hn hlt hedge
    obtain ⟨hi, rfl⟩ := getElem?_walk_eq_some.1 hm
    obtain ⟨hj, rfl⟩ := getElem?_walk_eq_some.1 hn
    exact ancestor_of_above (g.depthFirst_ofGraph.above_edge ⟨hi, hj, hedge⟩ hlt) hj

/-- The node 2 is noted on the stack from 0 and from 1, and is entered from 1. -/
example :
    let g := ofEdges 4 [(0, 1), (0, 2), (0, 2), (1, 1), (1, 2), (2, 0), (2, 9), (3, 2)] [] 0
    g.walk = [⟨0, none⟩, ⟨1, some 0⟩, ⟨2, some 1⟩] := by
  cbv

end Graph
end AdventureLogic
