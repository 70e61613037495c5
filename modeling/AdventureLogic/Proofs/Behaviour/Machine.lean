import AdventureLogic.Instruction
import Mathlib.Logic.Relation

/-!
# What a run shows

Linear code and block graphs run in the same way: commands are carried out,
clauses are tested, and now and then control only moves. A `Machine` says where
a run starts and what it does next. The outcomes of tests are not modelled;
they come from a sequence of decisions, one for each test.

What can be seen of a run is its `Trace`: the commands it carried out and the
clauses it tested, in order, and whether it has halted. Moves without an effect
cannot be seen, so two runs are compared without counting them: `Equivalent`
machines show the same traces for every sequence of decisions, each after some
number of moves of its own. Then both halt after the same effects, or both go
on for ever with the same effects, or both move for ever without any more.

Key definitions: `Move`, `Machine`, `Machine.trace`, `Machine.Equivalent`,
`Machine.Matched`. Key theorem: `Machine.equivalent_of_matched`.
-/

namespace AdventureLogic

/-- What can be seen of a run. -/
inductive Effect where
  /-- A command is carried out. -/
  | command (c : Command)
  /-- Clauses are tested. -/
  | test (clauses : List Clause)
  deriving DecidableEq, Inhabited

/-- What a machine does next in a state. -/
inductive Move (σ : Type) where
  | halt
  /-- Goes on without an effect. -/
  | pass (s : σ)
  /-- Carries out a command. -/
  | act (c : Command) (s : σ)
  /-- Tests clauses and goes on to `yes` if they hold, to `no` if they do not. -/
  | ask (clauses : List Clause) (yes no : σ)
  deriving DecidableEq, Inhabited

/-- A run so far: its effects in order, and whether it has halted. -/
structure Trace where
  effects : List Effect := []
  halted : Bool := false
  deriving DecidableEq, Inhabited

/-- A trace after an effect. -/
def Trace.after (e : Effect) (t : Trace) : Trace := { t with effects := e :: t.effects }

/-- Something that runs. -/
@[ext] structure Machine (σ : Type) where
  start : σ
  move : σ → Move σ

/-- Moves of the same kind with the same effect, to related states. -/
inductive Move.Related {σ τ : Type} (R : σ → τ → Prop) : Move σ → Move τ → Prop where
  | halt : Related R .halt .halt
  | pass {s : σ} {t : τ} (h : R s t) : Related R (.pass s) (.pass t)
  | act {s : σ} {t : τ} (c : Command) (h : R s t) : Related R (.act c s) (.act c t)
  | ask {s s' : σ} {t t' : τ} (clauses : List Clause) (yes : R s t) (no : R s' t') :
    Related R (.ask clauses s s') (.ask clauses t t')

namespace Machine

variable {σ τ υ : Type}

/-- The trace of `n` moves from a state. The decision `d 0` is the outcome of the next test. -/
def traceFrom (m : Machine σ) : (d : Nat → Bool) → (n : Nat) → σ → Trace
  | _, 0, _ => ⟨[], false⟩
  | d, n + 1, s =>
    match m.move s with
    | .halt => ⟨[], true⟩
    | .pass s => m.traceFrom d n s
    | .act c s => (m.traceFrom d n s).after (.command c)
    | .ask clauses yes no =>
      (m.traceFrom (fun k => d (k + 1)) n (if d 0 then yes else no)).after (.test clauses)

/-- The trace of the first `n` moves. -/
def trace (m : Machine σ) (d : Nat → Bool) (n : Nat) : Trace := m.traceFrom d n m.start

/-- Every trace of one machine is a trace of the other, for the same decisions. -/
def Equivalent (m : Machine σ) (m' : Machine τ) : Prop :=
  ∀ (d : Nat → Bool) (t : Trace), (∃ n, m.trace d n = t) ↔ ∃ n, m'.trace d n = t

namespace Equivalent

variable {m : Machine σ} {m' : Machine τ} {m'' : Machine υ}

theorem refl (m : Machine σ) : m.Equivalent m := fun _ _ => Iff.rfl

theorem symm (h : m.Equivalent m') : m'.Equivalent m := fun d t => (h d t).symm

theorem trans (h : m.Equivalent m') (h' : m'.Equivalent m'') : m.Equivalent m'' :=
  fun d t => (h d t).trans (h' d t)

end Equivalent

/-- From one state to another without effects. -/
def Passes (m : Machine σ) : σ → σ → Prop :=
  Relation.ReflTransGen fun s t => m.move s = .pass t

theorem traceFrom_of_passes {m : Machine σ} {s t : σ} (h : m.Passes s t) (d : Nat → Bool)
    (n : Nat) : ∃ k, m.traceFrom d (n + k) s = m.traceFrom d n t := by
  induction h using Relation.ReflTransGen.head_induction_on with
  | refl => exact ⟨0, rfl⟩
  | head hmove _ ih =>
    obtain ⟨k, hk⟩ := ih
    refine ⟨k + 1, ?_⟩
    rw [← hk, ← Nat.add_assoc, traceFrom, hmove]

/-- The machine can do what the move does, after some moves without effects. -/
inductive Answers (m : Machine τ) (R : σ → τ → Prop) : Move σ → τ → Prop where
  | halt {t t' : τ} (h : m.Passes t t') (hm : m.move t' = .halt) : Answers m R .halt t
  | pass {s : σ} {t t' : τ} (h : m.Passes t t') (hr : R s t') : Answers m R (.pass s) t
  | act {c : Command} {s : σ} {t t' u : τ} (h : m.Passes t t') (hm : m.move t' = .act c u)
    (hr : R s u) : Answers m R (.act c s) t
  | ask {clauses : List Clause} {s s' : σ} {t t' u u' : τ} (h : m.Passes t t')
    (hm : m.move t' = .ask clauses u u') (yes : R s u) (no : R s' u') :
    Answers m R (.ask clauses s s') t

/-- An answer from the next state is an answer. -/
theorem Answers.of_pass {m : Machine τ} {R : σ → τ → Prop} {v : Move σ} {t t' : τ}
    (hm : m.move t = .pass t') (h : m.Answers R v t') : m.Answers R v t := by
  cases h with
  | halt hp h => exact .halt (.head hm hp) h
  | pass hp h => exact .pass (.head hm hp) h
  | act hp h hr => exact .act (.head hm hp) h hr
  | ask hp h hy hn => exact .ask (.head hm hp) h hy hn

/-- A machine that answers all moves of another shows its traces. -/
theorem exists_traceFrom_of_answers {m : Machine σ} {m' : Machine τ} {R : σ → τ → Prop}
    (hR : ∀ s t, R s t → m'.Answers R (m.move s) t) :
    ∀ (n : Nat) (d : Nat → Bool) (s : σ) (t : τ), R s t →
      ∃ k, m'.traceFrom d k t = m.traceFrom d n s
  | 0, d, s, t, _ => ⟨0, rfl⟩
  | n + 1, d, s, t, h => by
    have ha := hR s t h
    unfold traceFrom
    generalize m.move s = v at ha
    cases ha with
    | @halt _ t' hp hm =>
      obtain ⟨j, hj⟩ := traceFrom_of_passes hp d 1
      refine ⟨1 + j, ?_⟩
      rw [← traceFrom.eq_def, hj, traceFrom, hm]
    | @pass s' _ t' hp hr =>
      obtain ⟨k, hk⟩ := exists_traceFrom_of_answers hR n d s' t' hr
      obtain ⟨j, hj⟩ := traceFrom_of_passes hp d k
      refine ⟨k + j, ?_⟩
      rw [← traceFrom.eq_def, hj, hk]
    | @act c s' _ t' u hp hm hr =>
      obtain ⟨k, hk⟩ := exists_traceFrom_of_answers hR n d s' u hr
      obtain ⟨j, hj⟩ := traceFrom_of_passes hp d (k + 1)
      refine ⟨k + 1 + j, ?_⟩
      rw [← traceFrom.eq_def, hj, traceFrom, hm]
      simp only [hk]
    | @ask clauses y n' _ t' u u' hp hm hy hn =>
      have hr : R (if d 0 then y else n') (if d 0 then u else u') := by
        split
        · exact hy
        · exact hn
      obtain ⟨k, hk⟩ := exists_traceFrom_of_answers hR n (fun k => d (k + 1)) _ _ hr
      obtain ⟨j, hj⟩ := traceFrom_of_passes hp d (k + 1)
      refine ⟨k + 1 + j, ?_⟩
      rw [← traceFrom.eq_def, hj, traceFrom, hm]
      simp only [hk]

/-- In related states both machines make related moves, or one of them passes to a state that is
related more closely. -/
inductive Matched (m : Machine σ) (m' : Machine τ) (R : Nat → σ → τ → Prop) :
    Nat → σ → τ → Prop where
  | both {k : Nat} {s : σ} {t : τ}
    (h : (m.move s).Related (fun s t => ∃ k, R k s t) (m'.move t)) : Matched m m' R k s t
  | left {j k : Nat} {s s' : σ} {t : τ} (h : m.move s = .pass s') (hr : R j s' t) (hlt : j < k) :
    Matched m m' R k s t
  | right {j k : Nat} {s : σ} {t t' : τ} (h : m'.move t = .pass t') (hr : R j s t') (hlt : j < k) :
    Matched m m' R k s t

theorem Matched.flip {m : Machine σ} {m' : Machine τ} {R : Nat → σ → τ → Prop} {k : Nat} {s : σ}
    {t : τ} (h : m.Matched m' R k s t) : m'.Matched m (fun k t s => R k s t) k t s := by
  cases h with
  | both h =>
    refine .both ?_
    generalize m.move s = v at h
    generalize m'.move t = w at h
    cases h with
    | halt => exact .halt
    | pass h => exact .pass h
    | act c h => exact .act c h
    | ask clauses hy hn => exact .ask clauses hy hn
  | left h hr hlt => exact .right h hr hlt
  | right h hr hlt => exact .left h hr hlt

/-- Passes on one side do not go on for ever, so a matched move is answered. -/
theorem answers_of_matched {m : Machine σ} {m' : Machine τ} {R : Nat → σ → τ → Prop}
    (hR : ∀ k s t, R k s t → m.Matched m' R k s t) (k : Nat) :
    ∀ (s : σ) (t : τ), R k s t → m'.Answers (fun s t => ∃ k, R k s t) (m.move s) t := by
  induction k using Nat.strongRecOn with
  | ind k ih =>
    intro s t h
    cases hR k s t h with
    | both h =>
      generalize m.move s = v at h
      generalize hw : m'.move t = w at h
      cases h with
      | halt => exact .halt .refl hw
      | pass h => exact .pass (.single hw) h
      | act c h => exact .act .refl hw h
      | ask clauses hy hn => exact .ask .refl hw hy hn
    | left h hr _ =>
      rw [h]
      exact .pass .refl ⟨_, hr⟩
    | right h hr hlt => exact (ih _ hlt s _ hr).of_pass h

/-- Every trace from a state is one from a matched state. -/
theorem exists_traceFrom_of_matched {m : Machine σ} {m' : Machine τ} {R : Nat → σ → τ → Prop}
    (hR : ∀ k s t, R k s t → m.Matched m' R k s t) {k : Nat} {s : σ} {t : τ} (h : R k s t)
    (d : Nat → Bool) (n : Nat) : ∃ j, m'.traceFrom d j t = m.traceFrom d n s := by
  refine exists_traceFrom_of_answers (R := fun s t => ∃ k, R k s t) ?_ n d s t ⟨k, h⟩
  rintro s t ⟨k, h⟩
  exact answers_of_matched hR k s t h

/-- **Machines whose moves match are equivalent.** The relation carries a bound on the number of
passes that only one of the machines makes. -/
theorem equivalent_of_matched {m : Machine σ} {m' : Machine τ} (R : Nat → σ → τ → Prop) {k : Nat}
    (hstart : R k m.start m'.start) (hR : ∀ k s t, R k s t → m.Matched m' R k s t) :
    m.Equivalent m' := by
  intro d t
  constructor
  · rintro ⟨n, rfl⟩
    exact exists_traceFrom_of_matched hR hstart d n
  · rintro ⟨n, rfl⟩
    exact exists_traceFrom_of_matched (R := fun k t s => R k s t) (fun k t s h => (hR k s t h).flip)
      hstart d n

end Machine
end AdventureLogic
