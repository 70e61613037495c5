import Std.Data.TreeSet

/-!
# Finite sets that get smaller

Searches that must not go round in circles keep the set of what they have not
seen yet. It gets smaller with every step, which is why they end.
-/

namespace AdventureLogic
namespace FiniteSet

variable {α : Type} [Ord α] [Std.TransOrd α]

/-- A set with an element is not of size zero. -/
theorem size_ne_zero {s : Std.TreeSet α} {a : α} (h : a ∈ s) : s.size ≠ 0 := by
  intro h0
  have hs : s.isEmpty = true := by simp [Std.TreeSet.isEmpty_eq_size_eq_zero, h0]
  exact Std.TreeSet.not_mem_of_isEmpty hs h

/-- Without one of its elements a set is smaller. -/
theorem size_erase_lt {s : Std.TreeSet α} {a : α} (h : a ∈ s) : (s.erase a).size < s.size := by
  have hc : s.contains a = true := h
  have hpos := size_ne_zero h
  rw [Std.TreeSet.size_erase, if_pos hc]
  omega

end FiniteSet
end AdventureLogic
