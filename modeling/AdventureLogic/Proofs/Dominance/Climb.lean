import AdventureLogic.Dominance.Tree
import AdventureLogic.Proofs.Dominance.Semidominators

/-!
# The climb finds the immediate dominators

From the smallest number up, each number is hung below its immediate dominator.
The numbers that the finished part has above a number are its dominators; the
climb from the parent keeps those of them that are at most the semidominator,
and these are the dominators of the number itself (`Raised.raise`). When all
numbers are done, what stands above a number is what dominates it
(`Raised.immediateDominators`).

Key definition: `Raised`. Key theorems: `above_climb`, `Raised.raise`,
`Raised.immediateDominators`.
-/

namespace AdventureLogic
namespace Dominance

/-- The climb ends where what stands above is what stood above and is at most the limit. -/
theorem above_climb {idom : Array Nat} (hup : ∀ w, 0 < w → idom.getD w 0 < w) (limit x y : Nat) :
    Above (idom.getD · 0) y (Numbering.climb idom limit x) ↔
      Above (idom.getD · 0) y x ∧ y ≤ limit := by
  fun_induction Numbering.climb idom limit x with
  | case1 x hx =>
    refine ⟨fun h => ⟨h, ?_⟩, And.left⟩
    have := h.le hup
    omega
  | case2 x hx hlt ih =>
    rw [ih, Above.pos_iff (show 0 < x by omega)]
    constructor
    · exact fun h => ⟨.inr h.1, h.2⟩
    · rintro ⟨rfl | h, hy⟩
      · exact absurd hy hx
      · exact ⟨h, hy⟩
  | case3 x hx hlt => exact absurd (hup x (by omega)) hlt

/-- The numbers smaller than `k` are hung below their immediate dominators, so that what stands
above one of them is what dominates it. The others still hang below their parents. -/
structure Raised (edge : Nat → Nat → Prop) (d : Numbering) (k : Nat) (idom : Array Nat) : Prop where
  size : idom.size = d.count
  lt : ∀ w, 0 < w → idom.getD w 0 < w
  rest : ∀ w, k ≤ w → idom.getD w 0 = d.parentOf w
  above_iff : ∀ w, w < k → w < d.count → ∀ x, Above (idom.getD · 0) x w ↔ ¬Avoids edge x w

namespace Raised

variable {edge : Nat → Nat → Prop} {d : Numbering} {g : Graph}
  (hd : DepthFirst d.count edge d.parentOf)
include hd

theorem parent (hsize : d.parent.size = d.count) : Raised edge d 1 d.parent where
  size := hsize
  lt := hd.up_lt
  rest _ _ := rfl
  above_iff w hw _ x := by
    obtain rfl : w = 0 := by omega
    rw [Above.zero_iff]
    constructor
    · rintro rfl
      exact not_avoids_zero
    · intro hav
      by_cases hx : x = 0
      · exact hx
      · exact absurd (.root hx) hav

/-- **One step.** The climb for the next number finds its immediate dominator. -/
theorem raise {k : Nat} {idom : Array Nat} {f : Forest} (h : Raised edge d k idom) (hk : 0 < k)
    (hc : k < d.count) (hs : IsSemi edge k (f.semiOf k)) :
    Raised edge d (k + 1) (Numbering.raise f idom k) := by
  have hlt := hd.up_lt k hk
  have hparent := h.rest k (Nat.le_refl k)
  have hclimb := above_climb h.lt (f.semiOf k) (d.parentOf k)
  have hread : ∀ w, (Numbering.raise f idom k).getD w 0 =
      if w = k then Numbering.climb idom (f.semiOf k) (d.parentOf k) else idom.getD w 0 := by
    intro w
    rw [Numbering.raise, hparent]
    exact getD_setIfInBounds (h.size.symm ▸ hc) _ 0 w
  have htop := ((hclimb _).1 .self).1.le h.lt
  have hup : ∀ w, 0 < w → (Numbering.raise f idom k).getD w 0 < w := by
    intro w hw
    rw [hread]
    by_cases hwk : w = k
    · rw [if_pos hwk]
      omega
    · rw [if_neg hwk]
      exact h.lt w hw
  -- what stands above the smaller numbers does not change
  have hstill : ∀ w < k, ∀ x, Above ((Numbering.raise f idom k).getD · 0) x w ↔
      Above (idom.getD · 0) x w := fun w hw x =>
    Above.congr_iff hup h.lt fun v _ hv => (hread v).trans (if_neg (by omega))
  refine ⟨(Array.size_setIfInBounds ..).trans h.size, hup, fun w hw => ?_, fun w hw hwc x => ?_⟩
  · rw [hread, if_neg (by omega), h.rest w (by omega)]
  · by_cases hwk : w = k
    · subst hwk
      rw [Above.pos_iff hk, hread, if_pos rfl, hstill _ (by omega), hclimb,
        h.above_iff _ hlt (by omega), hd.dominates_iff hk hc hs]
    · rw [hstill w (by omega)]
      exact h.above_iff w (by omega) hwc x

/-- All steps, from the number `k` on. -/
theorem foldl {f : Forest} (hs : ∀ w, 0 < w → w < d.count → IsSemi edge w (f.semiOf w)) {n : Nat} :
    ∀ {k : Nat} {idom : Array Nat}, Raised edge d k idom → 0 < k → n ≤ d.count - k →
      Raised edge d (k + n) ((List.range' k n).foldl (Numbering.raise f) idom) := by
  induction n with
  | zero => exact fun h _ _ => h
  | succ n ih =>
    intro k idom h hk hn
    rw [List.range'_succ, List.foldl_cons, show k + (n + 1) = k + 1 + n by omega]
    exact ih (h.raise hd hk (by omega) (hs k hk (by omega))) (by omega) (by omega)

/-- **What stands above a number at the end is what dominates it.** -/
theorem immediateDominators (hsize : d.parent.size = d.count)
    (hpred : ∀ w < d.count, ∀ v, v ∈ d.predecessors g w ↔ edge v w) :
    Raised edge d (1 + (d.count - 1)) (d.immediateDominators g) :=
  foldl hd (Settled.semidominators hd hpred).isSemi (parent hd hsize) (by omega) (Nat.le_refl _)

end Raised
end Dominance
end AdventureLogic
