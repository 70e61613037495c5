/-!
# When a sequence of steps succeeds

Most functions of the library may fail. These lemmas take a success of a
composed computation apart into the successes of its steps.
-/

namespace AdventureLogic
namespace Result

variable {ε α β : Type}

/-- A sequence succeeds exactly if its first step does and then its second. -/
theorem bind_eq_ok {x : Except ε α} {f : α → Except ε β} {b : β} :
    x >>= f = .ok b ↔ ∃ a, x = .ok a ∧ f a = .ok b := by
  cases x <;> simp [bind, Except.bind]

/-- A mapped computation succeeds exactly if the computation does. -/
theorem map_eq_ok {x : Except ε α} {f : α → β} {b : β} :
    x.map f = .ok b ↔ ∃ a, x = .ok a ∧ f a = b := by
  cases x <;> simp [Except.map]

/-- A computation that only returns. -/
theorem pure_eq_ok {a b : α} : (pure a : Except ε α) = .ok b ↔ a = b := by
  simp [pure, Except.pure]

end Result
end AdventureLogic
