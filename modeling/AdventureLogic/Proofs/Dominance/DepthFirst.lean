/-!
# Dominance on the numbers of a depth-first walk

A depth-first walk numbers the nodes it reaches and hangs each below the node
it was entered from. Of the walk only five facts are used (`DepthFirst`): a
parent has a smaller number, an edge leads from it, edges join numbered nodes,
the parent of a node stands above the node numbered just before, and an edge to
a larger number leads to a descendant.

From these follow the two theorems on which the computation of dominators
rests. The semidominator of a node is the least of its smaller predecessors and
of the semidominators above the others (`DepthFirst.isSemi_of_least`). And a
node dominates another exactly if it dominates the other's parent and its number
is at most the other's semidominator (`DepthFirst.dominates_iff`).

Key definitions: `Above`, `DepthFirst`, `HighPath`, `IsSemi`, `Avoids`.
Key theorems: `DepthFirst.highPath_cases`, `DepthFirst.isSemi_of_least`,
`DepthFirst.dominates_iff`.
-/

namespace AdventureLogic
namespace Dominance

/-! ## Ancestors -/

/-- `a` is `b` or stands above it: climbing `up` from `b` comes to `a`. The number 0 has nothing
above it. -/
inductive Above (up : Nat → Nat) (a : Nat) : Nat → Prop
  | self : Above up a a
  | up {b : Nat} : 0 < b → Above up a (up b) → Above up a b

namespace Above

variable {up : Nat → Nat} {a b c : Nat}

theorem trans (hab : Above up a b) (hbc : Above up b c) : Above up a c := by
  induction hbc with
  | self => exact hab
  | up hc _ ih => exact .up hc ih

/-- What stands above a node stands above its parent. -/
theorem of_ne (h : Above up a b) (hne : a ≠ b) : 0 < b ∧ Above up a (up b) := by
  cases h with
  | self => exact absurd rfl hne
  | up hb h => exact ⟨hb, h⟩

theorem zero_iff : Above up a 0 ↔ a = 0 := by
  constructor
  · intro h
    by_cases hne : a = 0
    · exact hne
    · exact absurd (h.of_ne hne).1 (by omega)
  · rintro rfl
    exact .self

theorem pos_iff (hb : 0 < b) : Above up a b ↔ a = b ∨ Above up a (up b) := by
  constructor
  · intro h
    by_cases hne : a = b
    · exact .inl hne
    · exact .inr (h.of_ne hne).2
  · rintro (rfl | h)
    · exact .self
    · exact .up hb h

variable (hup : ∀ w, 0 < w → up w < w)
include hup

/-- The root stands above every number. -/
theorem root (b : Nat) : Above up 0 b := by
  induction b using Nat.strongRecOn with
  | ind b ih =>
    by_cases hb : b = 0
    · subst hb
      exact .self
    · have hpos := Nat.pos_of_ne_zero hb
      exact .up hpos (ih _ (hup b hpos))

theorem le (h : Above up a b) : a ≤ b := by
  induction h with
  | self => exact Nat.le_refl a
  | up hb _ ih =>
    have := hup _ hb
    omega

/-- Of two nodes above a third, the one with the smaller number is above the other. -/
theorem of_le (ha : Above up a c) (hb : Above up b c) (hab : a ≤ b) : Above up a b := by
  induction hb with
  | self => exact ha
  | @up c hc hb ih =>
    have hlt := hup c hc
    have hbc := hb.le hup
    exact ih (ha.of_ne (by omega)).2

/-- What stands above a node depends on the climbs up to it only. -/
theorem congr {up' : Nat → Nat} (h : Above up a b) (heq : ∀ w, 0 < w → w ≤ b → up w = up' w) :
    Above up' a b := by
  induction h with
  | self => exact .self
  | @up b hb _ ih =>
    have hlt := hup b hb
    refine .up hb ?_
    rw [← heq b hb (Nat.le_refl b)]
    exact ih fun w hw hle => heq w hw (by omega)

theorem congr_iff {up' : Nat → Nat} (hup' : ∀ w, 0 < w → up' w < w)
    (heq : ∀ w, 0 < w → w ≤ b → up w = up' w) : Above up a b ↔ Above up' a b :=
  ⟨fun h => h.congr hup heq, fun h => h.congr hup' fun w hw hle => (heq w hw hle).symm⟩

end Above

/-! ## Depth-first numberings -/

/-- What is used of a depth-first walk that numbers `count` nodes: `edge` joins the numbers, `up`
leads from a number to that of its parent. -/
structure DepthFirst (count : Nat) (edge : Nat → Nat → Prop) (up : Nat → Nat) : Prop where
  up_lt : ∀ w, 0 < w → up w < w
  edge_up : ∀ w, 0 < w → w < count → edge (up w) w
  lt_count : ∀ {u v}, edge u v → u < count ∧ v < count
  /-- When a node is entered, the node visited last is below its parent. -/
  above_last : ∀ w, 0 < w → w < count → Above up (up w) (w - 1)
  /-- An edge to a node that is visited later leads down the tree. -/
  above_edge : ∀ {u v}, edge u v → u < v → Above up u v

/-- A path from `y` to `w`, of at least one edge, passes only numbers larger than `w` on its way. -/
inductive HighPath (edge : Nat → Nat → Prop) (w : Nat) : Nat → Prop
  | edge {y : Nat} : edge y w → HighPath edge w y
  | step {y v : Nat} : edge y v → w < v → HighPath edge w v → HighPath edge w y

/-- `s` is the semidominator of `w`: the smallest number from which a high path leads to `w`. -/
structure IsSemi (edge : Nat → Nat → Prop) (w s : Nat) : Prop where
  path : HighPath edge w s
  least : ∀ y, HighPath edge w y → s ≤ y

theorem IsSemi.eq {edge : Nat → Nat → Prop} {w s t : Nat} (hs : IsSemi edge w s)
    (ht : IsSemi edge w t) : s = t :=
  Nat.le_antisymm (hs.least t ht.path) (ht.least s hs.path)

/-- Some path from the number 0 to a number does not meet `x`. -/
inductive Avoids (edge : Nat → Nat → Prop) (x : Nat) : Nat → Prop
  | root : x ≠ 0 → Avoids edge x 0
  | step {u v : Nat} : Avoids edge x u → edge u v → v ≠ x → Avoids edge x v

theorem HighPath.trans {edge : Nat → Nat → Prop} {b z y : Nat} (hy : HighPath edge z y)
    (hz : HighPath edge b z) (hlt : b < z) : HighPath edge b y := by
  induction hy with
  | edge e => exact .step e hlt hz
  | step e hv _ ih => exact .step e (Nat.lt_trans hlt hv) ih

theorem Avoids.highPath {edge : Nat → Nat → Prop} {x y z : Nat} (hz : HighPath edge z y)
    (hx : x < z) (hy : Avoids edge x y) : Avoids edge x z := by
  induction hz with
  | edge e => exact .step hy e (by omega)
  | step e hv _ ih => exact ih (.step hy e (by omega))

theorem not_avoids_self {edge : Nat → Nat → Prop} {x : Nat} : ¬Avoids edge x x := by
  intro h
  cases h with
  | root hx => exact hx rfl
  | step _ _ hx => exact hx rfl

theorem not_avoids_zero {edge : Nat → Nat → Prop} {v : Nat} : ¬Avoids edge 0 v := by
  intro h
  induction h with
  | root hx => exact hx rfl
  | step _ _ _ ih => exact ih

namespace DepthFirst

variable {count : Nat} {edge : Nat → Nat → Prop} {up : Nat → Nat} (h : DepthFirst count edge up)
include h

/-- The numbers below a node follow on it without a gap. -/
theorem above_of_between {u x y : Nat} (hx : Above up u x) (hc : x < count) (huy : u ≤ y)
    (hyx : y ≤ x) : Above up u y := by
  induction x with
  | zero =>
    obtain rfl : y = 0 := by omega
    exact hx
  | succ x ih =>
    by_cases hy : y = x + 1
    · subst hy
      exact hx
    · -- the parent of `x + 1` is above `x`, so `u` is above `x` too
      have hux := (hx.of_ne (by omega)).2
      have hlast := h.above_last (x + 1) (by omega) hc
      exact ih (hux.trans hlast) (by omega) (by omega)

/-- An edge from below `m` does not leave the tree of `m`, unless it leads to a smaller number. -/
theorem above_step {m x y : Nat} (hx : Above up m x) (e : edge x y) (hm : m ≤ y) :
    Above up m y := by
  by_cases hxy : x < y
  · exact hx.trans (h.above_edge e hxy)
  · exact h.above_of_between hx (h.lt_count e).1 hm (by omega)

/-- A high path from below `m` ends below `m`. -/
theorem above_highPath {m w x : Nat} (hp : HighPath edge w x) (hx : Above up m x) (hm : m ≤ w) :
    Above up m w := by
  induction hp with
  | edge e => exact h.above_step hx e hm
  | step e hv _ ih => exact ih (h.above_step hx e (by omega))

/-- A high path can start further up the tree. -/
theorem highPath_up {b z a : Nat} (hz : Above up z a) (hp : HighPath edge b a) (hb : b < z)
    (hc : a < count) : HighPath edge b z := by
  induction hz with
  | self => exact hp
  | @up a ha hz ih =>
    have hza := hz.le h.up_lt
    have hlt := h.up_lt a ha
    exact ih (.step (h.edge_up a ha hc) (by omega) hp) (by omega)

/-- **Where a high path comes from.** It is an edge, or it passes the least of its inner nodes,
from which the tree leads down to the last of them. -/
theorem highPath_cases {w y : Nat} (hp : HighPath edge w y) :
    edge y w ∨ ∃ u v, w < u ∧ HighPath edge u y ∧ Above up u v ∧ edge v w := by
  induction hp with
  | edge e => exact .inl e
  | @step y v e hv hp ih =>
    right
    rcases ih with last | ⟨u, x, hu, hup, hux, last⟩
    · exact ⟨v, v, hv, .edge e, .self, last⟩
    · -- the new inner node `v` takes the place of `u` unless it is larger
      rcases Nat.lt_or_ge u v with huv | hvu
      · exact ⟨u, x, hu, .step e huv hup, hux, last⟩
      · have hvx : Above up v u := h.above_highPath hup .self hvu
        exact ⟨v, x, hv, .edge e, hvx.trans hux, last⟩

/-- **The semidominator theorem.** A number that is least among the smaller predecessors of `w` and
the semidominators of the numbers larger than `w` above its predecessors is the semidominator
of `w`. -/
theorem isSemi_of_least {semi : Nat → Nat} {w s : Nat} (hw : s < w)
    (hsemi : ∀ u, w < u → u < count → IsSemi edge u (semi u))
    (hpath : edge s w ∨ ∃ u v, w < u ∧ Above up u v ∧ edge v w ∧ s = semi u)
    (hedge : ∀ v, edge v w → v < w → s ≤ v)
    (habove : ∀ u v, w < u → Above up u v → edge v w → s ≤ semi u) : IsSemi edge w s := by
  have hcount : ∀ {u v}, Above up u v → edge v w → u < count := by
    intro u v hu e
    have := hu.le h.up_lt
    have := (h.lt_count e).1
    omega
  constructor
  · rcases hpath with e | ⟨u, v, hu, huv, e, rfl⟩
    · exact .edge e
    · have hv := h.highPath_up huv (.edge e) hu (h.lt_count e).1
      exact (hsemi u hu (hcount huv e)).path.trans hv hu
  · intro y hy
    rcases h.highPath_cases hy with e | ⟨u, v, hu, hyu, huv, e⟩
    · by_cases hlt : y < w
      · exact hedge y e hlt
      · omega
    · calc s ≤ semi u := habove u v hu huv e
        _ ≤ y := (hsemi u hu (hcount huv e)).least y hyu

/-! ## Dominance -/

theorem avoids_of_lt {x y : Nat} (hy : y < count) (hx : y < x) : Avoids edge x y := by
  induction y using Nat.strongRecOn with
  | ind y ih =>
    by_cases h0 : y = 0
    · subst h0
      exact .root (by omega)
    · have hlt := h.up_lt y (by omega)
      exact .step (ih _ hlt (by omega) (by omega)) (h.edge_up y (by omega) hy) (by omega)

/-- The way down the tree from a number larger than `x` does not meet `x`. -/
theorem avoids_down {x z w : Nat} (hw : Above up z w) (hz : Avoids edge x z) (hx : x < z)
    (hc : w < count) : Avoids edge x w := by
  induction hw with
  | self => exact hz
  | @up b hb hw ih =>
    have hlt := h.up_lt b hb
    have hle := hw.le h.up_lt
    exact .step (ih (by omega)) (h.edge_up b hb hc) (by omega)

/-- A node that dominates another stands above it. -/
theorem above_of_not_avoids {x w : Nat} (hw : w < count) (hd : ¬Avoids edge x w) :
    Above up x w := by
  induction w using Nat.strongRecOn with
  | ind w ih =>
    by_cases hxw : x = w
    · subst hxw
      exact .self
    · have hw0 : 0 < w := by
        apply Nat.pos_of_ne_zero
        rintro rfl
        exact hd (.root hxw)
      have hlt := h.up_lt w hw0
      refine .up hw0 (ih _ hlt (by omega) fun hav => hd ?_)
      exact .step hav (h.edge_up w hw0 hw) (Ne.symm hxw)

/-- **Where a path goes round a node.** A path that does not meet `x` ends at a smaller number,
or it last jumped past `x` to a node from which the tree leads on to its end. -/
theorem avoids_cases {x v : Nat} (hv : Avoids edge x v) (hx : 0 < x) :
    v < x ∨ ∃ z y, x < z ∧ y < x ∧ HighPath edge z y ∧ Above up z v := by
  induction hv with
  | root => exact .inl hx
  | @step a b _ e hb ih =>
    by_cases hbx : b < x
    · exact .inl hbx
    right
    rcases ih with ha | ⟨z, y, hz, hy, hp, hza⟩
    · exact ⟨b, a, by omega, ha, .edge e, .self⟩
    · -- `z` is the least node after the jump; `b` takes its place if it is smaller
      rcases Nat.lt_or_ge b z with hbz | hzb
      · have hzb : HighPath edge b z := h.highPath_up hza (.edge e) hbz (h.lt_count e).1
        exact ⟨b, y, by omega, hy, hp.trans hzb hbz, .self⟩
      · exact ⟨z, y, hz, hy, hp, h.above_step hza e hzb⟩

theorem isSemi_lt {w s : Nat} (hs : IsSemi edge w s) (hw : 0 < w) (hc : w < count) : s < w := by
  have hle := hs.least _ (.edge (h.edge_up w hw hc))
  have hlt := h.up_lt w hw
  omega

/-- **Dominators from semidominators.** A node other than `w` dominates `w` exactly if it dominates
the parent of `w` and its number is at most the semidominator of `w`. -/
theorem dominates_iff {w s x : Nat} (hw : 0 < w) (hc : w < count) (hs : IsSemi edge w s) :
    ¬Avoids edge x w ↔ x = w ∨ (¬Avoids edge x (up w) ∧ x ≤ s) := by
  have hup := h.up_lt w hw
  have hsw := h.isSemi_lt hs hw hc
  constructor
  · intro hd
    by_cases hxw : x = w
    · exact .inl hxw
    right
    constructor
    · exact fun hav => hd (.step hav (h.edge_up w hw hc) (Ne.symm hxw))
    · have hle := (h.above_of_not_avoids hc hd).le h.up_lt
      by_cases hxs : x ≤ s
      · exact hxs
      · -- down the tree to `s` and along the high path no `x` is met
        have hav := h.avoids_of_lt (x := x) (y := s) (by omega) (by omega)
        exact absurd (hav.highPath hs.path (by omega)) hd
  · rintro (rfl | ⟨hd, hxs⟩)
    · exact not_avoids_self
    · intro hav
      have hx : 0 < x := by
        apply Nat.pos_of_ne_zero
        rintro rfl
        exact not_avoids_zero hav
      rcases h.avoids_cases hav hx with hlt | ⟨z, y, hz, hy, hp, hzw⟩
      · omega
      · by_cases hne : z = w
        · subst hne
          have := hs.least y hp
          omega
        · -- the path that jumps past `x` leads on to the parent of `w`
          have hyz := h.avoids_of_lt (x := x) (y := y) (by omega) hy
          have hzup := (hzw.of_ne hne).2
          exact hd (h.avoids_down hzup (hyz.highPath hp hz) hz (by omega))

end DepthFirst
end Dominance
end AdventureLogic
