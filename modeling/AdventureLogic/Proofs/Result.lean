import AdventureLogic.Event
import AdventureLogic.Result
import Mathlib.Data.List.Forall2

/-!
# When steps fail, and when steps over a list succeed

A sequence fails if one of its steps does, after those before it have
succeeded. A list of steps succeeds exactly if each step does.

Two computations agree if they report the same events and fail with the same
fault, or succeed with related values.

Key definition: `Logged.Agree`. Key theorems: `Result.bind_eq_error`,
`Result.mapM_eq_ok`, `Result.exists_mapM_iff`, `Logged.Agree.bind`.
-/

namespace AdventureLogic

theorem Result.bind_eq_error {ε α β : Type} {x : Except ε α} {f : α → Except ε β} {e : ε} :
    x >>= f = .error e ↔ x = .error e ∨ ∃ a, x = .ok a ∧ f a = .error e := by
  cases x <;> simp [bind, Except.bind]

theorem Result.map_eq_error {ε α β : Type} {x : Except ε α} {f : α → β} {e : ε} :
    x.map f = .error e ↔ x = .error e := by
  cases x <;> simp [Except.map]

/-- A sequence fails in its first step, or in its second after the first has succeeded. -/
theorem Logged.result_bind_eq_error {α β : Type} {x : Logged α} {f : α → Logged β} {e : Error} :
    (x >>= f).result = .error e ↔
      x.result = .error e ∨ ∃ a, x.result = .ok a ∧ (f a).result = .error e := by
  rw [result_bind]
  exact Result.bind_eq_error

/-- **A list of steps succeeds exactly if each step does.** -/
theorem Result.mapM_eq_ok {ε α β : Type} {f : α → Except ε β} : ∀ {xs : List α} {ys : List β},
    xs.mapM f = .ok ys ↔ List.Forall₂ (fun x y => f x = .ok y) xs ys
  | [], ys => by
    rw [List.mapM_nil, pure_eq_ok, List.forall₂_nil_left_iff, eq_comm]
  | x :: xs, ys => by
    rw [List.mapM_cons, bind_eq_ok, List.forall₂_cons_left_iff]
    constructor
    · rintro ⟨y, hy, h⟩
      obtain ⟨ys', hys, h⟩ := bind_eq_ok.1 h
      exact ⟨y, ys', hy, mapM_eq_ok.1 hys, (pure_eq_ok.1 h).symm⟩
    · rintro ⟨y, ys', hy, hys, rfl⟩
      exact ⟨y, hy, bind_eq_ok.2 ⟨ys', mapM_eq_ok.2 hys, rfl⟩⟩

/-- A computation that leaves a value succeeds with it. -/
theorem Result.eq_ok_of_toOption {ε α : Type} {x : Except ε α} {a : α}
    (h : x.toOption = some a) : x = .ok a := by
  cases x with
  | error e => cases h
  | ok b =>
    cases h
    rfl

/-- In a list of related pairs each first part has its second. -/
theorem exists_of_forall₂ {α β : Type} {R : α → β → Prop} {xs : List α} {ys : List β}
    (h : List.Forall₂ R xs ys) {x : α} (hx : x ∈ xs) : ∃ y ∈ ys, R x y := by
  induction h with
  | nil => cases hx
  | cons hr _ ih =>
    rcases List.mem_cons.1 hx with rfl | hx
    · exact ⟨_, List.mem_cons_self, hr⟩
    · obtain ⟨y, hy, hr⟩ := ih hx
      exact ⟨y, List.mem_cons_of_mem _ hy, hr⟩

/-- A list of steps has a result exactly if each step has one. -/
theorem Result.exists_mapM_iff {ε α β : Type} {f : α → Except ε β} {xs : List α} :
    (∃ ys, xs.mapM f = .ok ys) ↔ ∀ x ∈ xs, ∃ y, f x = .ok y := by
  constructor
  · rintro ⟨ys, h⟩ x hx
    obtain ⟨y, _, hy⟩ := exists_of_forall₂ (mapM_eq_ok.1 h) hx
    exact ⟨y, hy⟩
  · intro h
    induction xs with
    | nil => exact ⟨[], rfl⟩
    | cons x xs ih =>
      obtain ⟨y, hy⟩ := h x List.mem_cons_self
      obtain ⟨ys, hys⟩ := ih fun z hz => h z (List.mem_cons_of_mem _ hz)
      exact ⟨y :: ys, mapM_eq_ok.2 (.cons hy (mapM_eq_ok.1 hys))⟩

/-- A list of steps fails with the error of one of them. -/
theorem Result.mapM_eq_error {ε α β : Type} {f : α → Except ε β} {e : ε} : ∀ {xs : List α},
    xs.mapM f = .error e → ∃ x ∈ xs, f x = .error e
  | [], h => nomatch h
  | x :: xs, h => by
    rw [List.mapM_cons] at h
    rcases bind_eq_error.1 h with h | ⟨y, _, h⟩
    · exact ⟨x, List.mem_cons_self, h⟩
    · rcases bind_eq_error.1 h with h | ⟨ys, _, h⟩
      · obtain ⟨z, hz, h⟩ := mapM_eq_error h
        exact ⟨z, List.mem_cons_of_mem _ hz, h⟩
      · cases h

/-- Events do not matter for the result of a list of steps. -/
theorem Logged.result_mapM {α β : Type} (f : α → Logged β) :
    ∀ xs : List α, (xs.mapM f).result = xs.mapM fun x => (f x).result
  | [] => rfl
  | x :: xs => by
    rw [List.mapM_cons, List.mapM_cons, result_bind]
    simp only [result_bind, result_mapM f xs]
    rfl

theorem Logged.bind_pure_eq_map {α β : Type} (g : α → β) (x : Logged α) :
    (x >>= fun a => pure (g a)) = x.map g := by
  obtain ⟨r, events⟩ := x
  cases r with
  | error e => rfl
  | ok a => exact congrArg (Logged.mk _) (List.append_nil events)

/-! ## Computations that agree -/

/-- Both fail with the same fault, or both succeed with related values. -/
inductive Result.Agree {ε α β : Type} (R : α → β → Prop) : Except ε α → Except ε β → Prop where
  | error (e : ε) : Agree R (.error e) (.error e)
  | ok {a : α} {b : β} (h : R a b) : Agree R (.ok a) (.ok b)

namespace Logged

/-- Both report the same events and come to related ends. -/
structure Agree {α β : Type} (R : α → β → Prop) (x : Logged α) (y : Logged β) : Prop where
  events : x.events = y.events
  result : Result.Agree R x.result y.result

namespace Agree

variable {α β γ δ : Type} {R : α → β → Prop} {S : γ → δ → Prop} {x : Logged α} {y : Logged β}

theorem refl (x : Logged α) : Agree Eq x x := by
  refine ⟨rfl, ?_⟩
  cases x.result with
  | error e => exact .error e
  | ok a => exact .ok rfl

theorem pure {a : α} {b : β} (h : R a b) :
    Agree R (Pure.pure a : Logged α) (Pure.pure b : Logged β) := ⟨rfl, .ok h⟩

theorem throw (e : Error) : Agree R (MonadExcept.throw e : Logged α) (MonadExcept.throw e) :=
  ⟨rfl, .error e⟩

/-- Computations that agree and go on in agreement agree. -/
theorem bind {f : α → Logged γ} {g : β → Logged δ} (h : Agree R x y)
    (hfg : ∀ a b, x.result = .ok a → y.result = .ok b → R a b → Agree S (f a) (g b)) :
    Agree S (x >>= f) (y >>= g) := by
  obtain ⟨hevents, hresult⟩ := h
  obtain ⟨r, events⟩ := x
  obtain ⟨s, events'⟩ := y
  cases hevents
  cases hresult with
  | error e => exact ⟨rfl, .error e⟩
  | ok hab =>
    obtain ⟨hevents, hresult⟩ := hfg _ _ rfl rfl hab
    exact ⟨congrArg (events ++ ·) hevents, hresult⟩

theorem map {f : α → γ} {g : β → δ} (h : Agree R x y) (hfg : ∀ a b, R a b → S (f a) (g b)) :
    Agree S (x.map f) (y.map g) := by
  obtain ⟨hevents, hresult⟩ := h
  obtain ⟨r, events⟩ := x
  obtain ⟨s, events'⟩ := y
  refine ⟨hevents, ?_⟩
  cases hresult with
  | error e => exact .error e
  | ok hab => exact .ok (hfg _ _ hab)

theorem map_right {g : β → δ} {T : α → δ → Prop} (h : Agree R x y)
    (hg : ∀ a b, R a b → T a (g b)) : Agree T x (y.map g) := by
  rw [← bind_pure x, bind_pure_eq_map]
  exact h.map hg

/-- Computations that agree on the very values are the same. -/
theorem eq {x y : Logged α} (h : Agree Eq x y) : x = y := by
  obtain ⟨hevents, hresult⟩ := h
  obtain ⟨r, events⟩ := x
  obtain ⟨s, events'⟩ := y
  cases hevents
  cases hresult with
  | error e => rfl
  | ok hab =>
    cases hab
    rfl

end Agree
end Logged
end AdventureLogic
