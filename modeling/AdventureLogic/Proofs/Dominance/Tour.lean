import AdventureLogic.Dominance.Tour
import AdventureLogic.Proofs.Dominance.DepthFirst
import AdventureLogic.Proofs.Dominance.LinkForest
import Mathlib.Data.List.Nodup

/-!
# The tour of a tree tells who stands above whom

A tour of a tree with places for its nodes is a list of what it does, entering
and leaving (`trail`): what it does below a place stands in one piece between
entering and leaving the place. The stack makes the tour go exactly that way
(`Tour.goOn_eq`), and the counter notes where in the list each thing is done
(`Tour.noted_foldl`). So a place was entered and left while another was open
exactly if it hangs below it (`Tour.encloses_iff`).

Key definitions: `trail`, `Tour.Hangs`, `Tour.Piece`. Key theorems:
`mem_trail`, `nodup_trail`, `trail_piece`, `Tour.goOn_eq`,
`Tour.encloses_iff`.
-/

namespace AdventureLogic
namespace Dominance

/-! ## What a tour does -/

/-- The places right below `w`, in order. -/
def kids (size : Nat) (up : Nat → Nat) (w : Nat) : List Nat :=
  (List.range' (w + 1) (size - (w + 1))).filter fun v => up v = w

theorem mem_kids {size : Nat} {up : Nat → Nat} {v w : Nat} :
    v ∈ kids size up w ↔ w < v ∧ v < size ∧ up v = w := by
  rw [kids, List.mem_filter, List.mem_range'_1, decide_eq_true_eq]
  omega

theorem nodup_kids (size : Nat) (up : Nat → Nat) (w : Nat) : (kids size up w).Nodup :=
  List.Pairwise.filter _ List.nodup_range'

/-- What a tour does from the place `w` on down: it enters a place, or leaves it if there is the
mark. -/
def trail (size : Nat) (up : Nat → Nat) (w : Nat) : List (Nat × Bool) :=
  (w, false) :: (kids size up w).attach.flatMap (fun v => trail size up v.1) ++ [(w, true)]
termination_by size - w
decreasing_by
  have := mem_kids.1 v.2
  omega

theorem trail_eq (size : Nat) (up : Nat → Nat) (w : Nat) :
    trail size up w = (w, false) :: (kids size up w).flatMap (trail size up) ++ [(w, true)] := by
  rw [trail]
  simp only [List.flatMap_subtype, List.unattach_attach]

/-- A property of the trails of all places, if it goes from the kids to the place. -/
theorem kids_induction (size : Nat) (up : Nat → Nat) {P : Nat → Prop}
    (step : ∀ w, (∀ v ∈ kids size up w, P v) → P w) (w : Nat) : P w := by
  induction hn : size - w using Nat.strongRecOn generalizing w with
  | ind n ih =>
    refine step w fun v hv => ih (size - v) ?_ v rfl
    have := mem_kids.1 hv
    omega

variable {size : Nat} {up : Nat → Nat}

theorem mem_trail_iff {w : Nat} {e : Nat × Bool} :
    e ∈ trail size up w ↔ e = (w, false) ∨ (∃ v ∈ kids size up w, e ∈ trail size up v) ∨
      e = (w, true) := by
  rw [trail_eq]
  simp

/-- What a tour does from a place on down, it does with what hangs below the place. -/
theorem above_of_mem_trail {w : Nat} {e : Nat × Bool} (hw : w < size)
    (he : e ∈ trail size up w) : Above up w e.1 ∧ e.1 < size := by
  induction w using kids_induction size up with
  | step w ih =>
    obtain rfl | ⟨v, hv, he⟩ | rfl := mem_trail_iff.1 he
    · exact ⟨.self, hw⟩
    · obtain ⟨hlt, hsize, hup⟩ := mem_kids.1 hv
      obtain ⟨habove, he⟩ := ih v hv hsize he
      refine ⟨Above.trans ?_ habove, he⟩
      exact .up (by omega) (hup ▸ .self)
    · exact ⟨.self, hw⟩

variable (hup : ∀ w, 0 < w → up w < w)
include hup

/-- The trail of what hangs below a place is a piece of the trail of the place. -/
theorem trail_piece {a b : Nat} (h : Above up a b) (hb : b < size) :
    trail size up b <:+: trail size up a := by
  induction h with
  | self => exact List.infix_rfl
  | @up b hpos _ ih =>
    have hlt := hup b hpos
    have hkid : b ∈ kids size up (up b) := mem_kids.2 ⟨hlt, hb, rfl⟩
    have hpiece : trail size up b <:+: trail size up (up b) := by
      rw [trail_eq size up (up b)]
      obtain ⟨s, t, hst⟩ := List.append_of_mem hkid
      refine ⟨(up b, false) :: s.flatMap (trail size up),
        t.flatMap (trail size up) ++ [(up b, true)], ?_⟩
      rw [hst]
      simp
    exact hpiece.trans (ih (by omega))

/-- A tour enters and leaves what hangs below a place, and nothing else. -/
theorem mem_trail {a b : Nat} (ha : a < size) (hb : b < size) (finished : Bool) :
    (b, finished) ∈ trail size up a ↔ Above up a b := by
  constructor
  · exact fun h => (above_of_mem_trail ha h).1
  · intro h
    refine (trail_piece hup h hb).subset (mem_trail_iff.2 ?_)
    cases finished with
    | false => exact .inl rfl
    | true => exact .inr (.inr rfl)

/-- Of two kids neither hangs below the other, so what one has below it the other has not. -/
theorem disjoint_kids {u v w : Nat} (hu : u ∈ kids size up w) (hv : v ∈ kids size up w)
    (hne : u ≠ v) : List.Disjoint (trail size up u) (trail size up v) := by
  intro e heu hev
  obtain ⟨hwu, husize, hupu⟩ := mem_kids.1 hu
  obtain ⟨hwv, hvsize, hupv⟩ := mem_kids.1 hv
  have hu' := (above_of_mem_trail husize heu).1
  have hv' := (above_of_mem_trail hvsize hev).1
  rcases Nat.le_total u v with hle | hle
  · have := ((hu'.of_le hup hv' hle).of_ne hne).2.le hup
    omega
  · have := ((hv'.of_le hup hu' hle).of_ne hne.symm).2.le hup
    omega

/-- A tour enters and leaves each place once. -/
theorem nodup_trail {w : Nat} (hw : w < size) : (trail size up w).Nodup := by
  induction w using kids_induction size up with
  | step w ih =>
    have hbelow : ∀ finished, (w, finished) ∉ (kids size up w).flatMap (trail size up) := by
      intro finished h
      obtain ⟨v, hv, hmem⟩ := List.mem_flatMap.1 h
      obtain ⟨hlt, hsize, -⟩ := mem_kids.1 hv
      have := (above_of_mem_trail hsize hmem).1.le hup
      omega
    have hkids : ((kids size up w).flatMap (trail size up)).Nodup := by
      rw [List.nodup_flatMap]
      refine ⟨fun v hv => ih v hv (mem_kids.1 hv).2.1, ?_⟩
      exact (nodup_kids size up w).imp_of_mem fun hu hv hne => disjoint_kids hup hu hv hne
    rw [trail_eq, List.cons_append, List.nodup_cons, List.nodup_append]
    refine ⟨?_, hkids, List.nodup_singleton _, ?_⟩
    · simpa using hbelow false
    · rintro e he f hf rfl
      rw [List.mem_singleton] at hf
      exact hbelow true (hf ▸ he)

omit hup

/-! ## What the tour notes -/

namespace Tour

/-- Enters a place, or leaves it if there is the mark. -/
def record (t : Tour) (e : Nat × Bool) : Tour := if e.2 then t.leave e.1 else t.enter e.1

/-- What is noted of entering a place, or of leaving it if there is the mark. -/
def noted (t : Tour) (e : Nat × Bool) : Nat :=
  if e.2 then t.left.getD e.1 0 else t.entered.getD e.1 0

/-- The tour has room for so many places. -/
structure HasSize (t : Tour) (size : Nat) : Prop where
  entered : t.entered.size = size
  left : t.left.size = size

theorem hasSize_start (size : Nat) : (start size).HasSize size :=
  ⟨Array.size_replicate, Array.size_replicate⟩

@[simp] theorem counter_record (t : Tour) (e : Nat × Bool) :
    (t.record e).counter = t.counter + 1 := by
  unfold record
  split <;> rfl

theorem HasSize.record {t : Tour} (h : t.HasSize size) (e : Nat × Bool) :
    (t.record e).HasSize size := by
  unfold Tour.record
  split
  · exact ⟨h.entered, (Array.size_setIfInBounds ..).trans h.left⟩
  · exact ⟨(Array.size_setIfInBounds ..).trans h.entered, h.left⟩

/-- One step notes the counter of what it does and keeps all other notes. -/
theorem noted_record {t : Tour} (h : t.HasSize size) {e : Nat × Bool} (he : e.1 < size)
    (f : Nat × Bool) : (t.record e).noted f = if f = e then t.counter else t.noted f := by
  obtain ⟨w, finished⟩ := e
  obtain ⟨v, finished'⟩ := f
  have hentered : w < t.entered.size := h.entered.symm ▸ he
  have hleft : w < t.left.size := h.left.symm ▸ he
  cases finished <;> cases finished' <;>
    simp only [record, noted, enter, leave, getD_setIfInBounds, hentered, hleft, Prod.mk.injEq,
      and_true, and_false, if_true, if_false, reduceCtorEq, Bool.false_eq_true]

/-- **What is noted** is the place in the list of what is done. -/
theorem noted_foldl {l : List (Nat × Bool)} (hl : l.Nodup) (hsize : ∀ e ∈ l, e.1 < size) :
    ∀ {t : Tour}, t.HasSize size → ∀ e, (l.foldl record t).noted e =
      if e ∈ l then t.counter + l.idxOf e else t.noted e := by
  induction l with
  | nil => exact fun _ _ => by simp
  | cons f l ih =>
    intro t ht e
    obtain ⟨hf, hl⟩ := List.nodup_cons.1 hl
    rw [List.foldl_cons, ih hl (fun e he => hsize e (.tail _ he)) (ht.record f),
      noted_record ht (hsize f (.head _)), counter_record]
    by_cases hef : e = f
    · subst hef
      simp [hf]
    · simp only [List.mem_cons, hef, false_or, if_false, List.idxOf_cons_ne _ (Ne.symm hef)]
      split
      · omega
      · rfl

/-! ## The way of the stack -/

/-- The nodes of an order hang below each other as `up` says, and `below` has the nodes right below
each place. -/
structure Hangs (order : NodeOrder) (below : Array (List NodeId)) (up : Nat → Nat) : Prop where
  place : ∀ w < order.size, order.place? (order.nodeAt w) = some w
  below : ∀ w < order.size, below.getD w [] = (kids order.size up w).map order.nodeAt
  up_lt : ∀ w, 0 < w → up w < w

/-- What is still to be done for an entry of the stack. -/
def expand (size : Nat) (up : Nat → Nat) (e : Nat × Bool) : List (Nat × Bool) :=
  if e.2 then [e] else trail size up e.1

variable {order : NodeOrder} {below : Array (List NodeId)}

/-- A stack of places. -/
def stackOf (order : NodeOrder) (stack : List (Nat × Bool)) : List (NodeId × Bool) :=
  stack.map fun e => (order.nodeAt e.1, e.2)

theorem goOn_leave (h : Hangs order below up) {w : Nat} (hw : w < order.size)
    (unentered : Std.TreeSet Nat) (t : Tour) (stack : List (Nat × Bool)) :
    goOn order below unentered t (stackOf order ((w, true) :: stack)) =
      goOn order below unentered (t.leave w) (stackOf order stack) := by
  rw [stackOf, List.map_cons, goOn]
  simp only [h.place w hw, if_true]
  rfl

theorem goOn_enter (h : Hangs order below up) {w : Nat} {unentered : Std.TreeSet Nat}
    (hw : w < order.size) (hmem : w ∈ unentered) (t : Tour) (stack : List (Nat × Bool)) :
    goOn order below unentered t (stackOf order ((w, false) :: stack)) =
      goOn order below (unentered.erase w) (t.enter w)
        (stackOf order ((kids order.size up w).map (·, false) ++ (w, true) :: stack)) := by
  have hstack : stackOf order ((kids order.size up w).map (·, false) ++ (w, true) :: stack) =
      (below.getD w []).map (·, false) ++ (order.nodeAt w, true) :: stackOf order stack := by
    simp [stackOf, h.below w hw, Function.comp_def]
  rw [hstack, stackOf, List.map_cons, goOn]
  simp only [h.place w hw, hmem, if_true, if_false, Bool.false_eq_true]
  rfl

/-- **The stack makes the tour** do what its entries stand for, one after the other. -/
theorem goOn_eq (h : Hangs order below up) {todo : List (Nat × Bool)} :
    ∀ {stack : List (Nat × Bool)} {unentered : Std.TreeSet Nat} {t : Tour},
      stack.flatMap (expand order.size up) = todo → todo.Nodup →
      (∀ e ∈ stack, e.1 < order.size) → (∀ w, (w, false) ∈ todo → w ∈ unentered) →
      goOn order below unentered t (stackOf order stack) = todo.foldl record t := by
  -- each thing that is done is one turn of the stack
  induction todo with
  | nil =>
    intro stack unentered t htodo _ _ _
    cases stack with
    | nil => rw [stackOf, List.map_nil, goOn, List.foldl_nil]
    | cons e stack =>
      rw [List.flatMap_cons, List.append_eq_nil_iff, expand, trail_eq] at htodo
      split at htodo <;> simp at htodo
  | cons f todo ih =>
    intro stack unentered t htodo hnodup hsize hleft
    obtain ⟨hf, hrest⟩ := List.nodup_cons.1 hnodup
    cases stack with
    | nil => simp at htodo
    | cons e stack =>
      obtain ⟨w, finished⟩ := e
      have hw := hsize _ (.head _)
      cases finished with
      | true =>
        rw [List.flatMap_cons, expand, if_pos rfl, List.singleton_append, List.cons.injEq] at htodo
        obtain ⟨rfl, htodo⟩ := htodo
        rw [goOn_leave h hw, ih htodo hrest (fun e he => hsize e (.tail _ he))
          fun v hv => hleft v (.tail _ hv)]
        rfl
      | false =>
        rw [List.flatMap_cons, expand, if_neg Bool.false_ne_true, trail_eq, List.append_assoc,
          List.cons_append, List.cons.injEq] at htodo
        obtain ⟨rfl, htodo⟩ := htodo
        have hkids : ((kids order.size up w).map (·, false) ++ (w, true) :: stack).flatMap
            (expand order.size up) = todo := by
          rw [← htodo, List.flatMap_append, List.flatMap_cons, List.flatMap_map]
          rfl
        rw [goOn_enter h hw (hleft w (.head _)), ih hkids hrest]
        · rfl
        · intro e he
          rw [List.mem_append, List.mem_map, List.mem_cons] at he
          obtain ⟨v, hv, rfl⟩ | rfl | he := he
          · exact (mem_kids.1 hv).2.1
          · exact hw
          · exact hsize e (.tail _ he)
        · intro v hv
          rw [Std.TreeSet.mem_erase]
          refine ⟨fun heq => ?_, hleft v (.tail _ hv)⟩
          rw [Std.LawfulEqCmp.eq_of_compare heq] at hf
          exact hf hv

/-! ## Enclosure -/

theorem ofTree_eq (h : Hangs order below up) (hpos : 0 < order.size) :
    ofTree order below (order.nodeAt 0) =
      (trail order.size up 0).foldl record (start order.size) := by
  have hstack : [(0, false)].flatMap (expand order.size up) = trail order.size up 0 := by
    rw [List.flatMap_singleton]
    rfl
  refine goOn_eq h hstack (nodup_trail h.up_lt hpos) ?_ ?_
  · intro e he
    rw [List.mem_singleton.1 he]
    exact hpos
  · intro w hw
    rw [Std.TreeSet.mem_ofList, List.contains_iff_mem, List.mem_range]
    exact (above_of_mem_trail hpos hw).2

/-- What is noted at the end is the place in the trail of the whole tree. -/
theorem noted_ofTree (h : Hangs order below up) {w : Nat} (hw : w < order.size)
    (finished : Bool) : (ofTree order below (order.nodeAt 0)).noted (w, finished) =
      (trail order.size up 0).idxOf (w, finished) := by
  have hpos : 0 < order.size := by omega
  have hmem : (w, finished) ∈ trail order.size up 0 :=
    (mem_trail h.up_lt hpos hw finished).2 (Above.root h.up_lt w)
  rw [ofTree_eq h hpos, noted_foldl (nodup_trail h.up_lt hpos)
    (fun e he => (above_of_mem_trail hpos he).2) (hasSize_start _), if_pos hmem]
  exact Nat.zero_add _

/-- The tour of what hangs below a place is one piece of the whole tour, with `s` before it. -/
structure Piece (order : NodeOrder) (up : Nat → Nat) (a : Nat) (s t : List (Nat × Bool)) :
    Prop where
  eq : trail order.size up 0 = s ++ trail order.size up a ++ t
  disjoint : ∀ e ∈ trail order.size up a, e ∉ s

theorem exists_piece (h : Hangs order below up) {a : Nat} (ha : a < order.size) :
    ∃ s t, Piece order up a s t := by
  obtain ⟨s, t, hst⟩ := trail_piece h.up_lt (Above.root h.up_lt a) ha
  have hnodup : (s ++ trail order.size up a ++ t).Nodup := by
    rw [hst]
    exact nodup_trail h.up_lt (by omega)
  refine ⟨s, t, hst.symm, fun e he hs => ?_⟩
  exact List.disjoint_of_nodup_append hnodup.of_append_left hs he

namespace Piece

variable {a b : Nat} {s t : List (Nat × Bool)}

/-- What is done inside of the piece is noted while it lasts. -/
theorem noted_of_above (p : Piece order up a s t) (h : Hangs order below up) (ha : a < order.size)
    (hb : b < order.size) (hab : Above up a b) (finished : Bool) :
    (ofTree order below (order.nodeAt 0)).noted (b, finished) =
      s.length + (trail order.size up a).idxOf (b, finished) := by
  have hmem := (mem_trail h.up_lt ha hb finished).2 hab
  rw [noted_ofTree h hb, p.eq, List.append_assoc,
    List.idxOf_append_of_notMem (p.disjoint _ hmem), List.idxOf_append_of_mem hmem]

/-- What is done outside of the piece is noted before it or after it. -/
theorem noted_of_not_above (p : Piece order up a s t) (h : Hangs order below up)
    (ha : a < order.size) (hb : b < order.size) (hab : ¬Above up a b) (finished : Bool) :
    (ofTree order below (order.nodeAt 0)).noted (b, finished) < s.length ∨
      s.length + (trail order.size up a).length ≤
        (ofTree order below (order.nodeAt 0)).noted (b, finished) := by
  have hout := mt (mem_trail h.up_lt ha hb finished).1 hab
  rw [noted_ofTree h hb, p.eq, List.append_assoc]
  by_cases hs : (b, finished) ∈ s
  · rw [List.idxOf_append_of_mem hs]
    exact .inl (List.idxOf_lt_length_of_mem hs)
  · rw [List.idxOf_append_of_notMem hs, List.idxOf_append_of_notMem hout]
    omega

/-- The piece begins when its place is entered. -/
theorem noted_enter (p : Piece order up a s t) (h : Hangs order below up) (ha : a < order.size) :
    (ofTree order below (order.nodeAt 0)).noted (a, false) = s.length := by
  rw [p.noted_of_above h ha ha .self, trail_eq, List.cons_append, List.idxOf_cons_self,
    Nat.add_zero]

/-- The piece is over when its place is left. -/
theorem noted_leave (p : Piece order up a s t) (h : Hangs order below up) (ha : a < order.size) :
    (ofTree order below (order.nodeAt 0)).noted (a, true) + 1 =
      s.length + (trail order.size up a).length := by
  have hnodup := nodup_trail h.up_lt ha
  have hlast : (a, true) ∉ (a, false) :: (kids order.size up a).flatMap (trail order.size up) := by
    rw [trail_eq] at hnodup
    exact fun hmem => List.disjoint_of_nodup_append hnodup hmem (.head _)
  rw [p.noted_of_above h ha ha .self, trail_eq, List.idxOf_append_of_notMem hlast,
    List.idxOf_cons_self, List.length_append, List.length_singleton]
  omega

end Piece

/-- **Two comparisons tell who stands above whom.** -/
theorem encloses_iff (h : Hangs order below up) {a b : Nat} (ha : a < order.size)
    (hb : b < order.size) :
    (ofTree order below (order.nodeAt 0)).encloses a b = true ↔ Above up a b := by
  obtain ⟨s, t, p⟩ := exists_piece h ha
  obtain ⟨s', t', q⟩ := exists_piece h hb
  have henter := p.noted_enter h ha
  have hleave := p.noted_leave h ha
  have hcheck : (ofTree order below (order.nodeAt 0)).encloses a b = true ↔
      (ofTree order below (order.nodeAt 0)).noted (a, false) ≤
        (ofTree order below (order.nodeAt 0)).noted (b, false) ∧
      (ofTree order below (order.nodeAt 0)).noted (b, true) ≤
        (ofTree order below (order.nodeAt 0)).noted (a, true) := by
    rw [encloses, Bool.and_eq_true, decide_eq_true_eq, decide_eq_true_eq]
    rfl
  rw [hcheck]
  constructor
  · rintro ⟨hfirst, hlast⟩
    by_cases hab : Above up a b
    · exact hab
    -- `b` is entered after all of the piece, and left even later
    · have hout := p.noted_of_not_above h ha hb hab false
      have hlength : 2 ≤ (trail order.size up b).length := by
        rw [trail_eq]
        simp
      have henter' := q.noted_enter h hb
      have hleave' := q.noted_leave h hb
      omega
  · intro hab
    have hmem := (mem_trail h.up_lt ha hb true).2 hab
    have hlt := List.idxOf_lt_length_of_mem hmem
    have hfirst := p.noted_of_above h ha hb hab false
    have hlast := p.noted_of_above h ha hb hab true
    omega

end Tour
end Dominance
end AdventureLogic
