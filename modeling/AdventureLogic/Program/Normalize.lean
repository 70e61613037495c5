import AdventureLogic.Program.RedundantGotos
import AdventureLogic.Program.SelfContained
import AdventureLogic.Program.Unreachable

/-!
# Normal form

A program is brought into normal form by three passes, each run until it finds
nothing to change: unreachable instructions are dropped, conditions are made
self-contained (this can be turned off), redundant gotos are dropped. After
every change the labels are computed anew.

Two of the passes make the program shorter with every change, and the third
takes a fresh address; so each comes to an end.

Key definitions: `Pass`, `Pass.toFixpoint`, `Program.normalize`.
-/

namespace AdventureLogic

/-- A pass over a program. -/
inductive Pass where
  | unreachable
  | selfContained
  | redundantGotos
  deriving DecidableEq, Inhabited

namespace Pass

/-- The name of a pass in log lines. -/
def name : Pass → String
  | .unreachable => "remove unreachable"
  | .selfContained => "self-contained conditionals"
  | .redundantGotos => "remove redundant gotos"

/-- Runs a pass once. The result says whether the program has changed. -/
def run : Pass → Program → Program.Outcome Bool
  | .unreachable, p => p.dropUnreachable
  | .selfContained, p => p.selfContain
  | .redundantGotos, p => p.dropRedundantGotos

/-- How often a pass can still change a program, at most. -/
def changesLeft : Pass → Program → Nat
  | .selfContained, p => p.pool.room
  | _, p => p.code.length

theorem changesLeft_run {pass : Pass} {p : Program} (h : (pass.run p).result = .ok true) :
    pass.changesLeft (pass.run p).program < pass.changesLeft p := by
  cases pass with
  | unreachable => exact Program.length_dropUnreachable h
  | selfContained => exact Program.room_selfContain h
  | redundantGotos => exact Program.length_dropRedundantGotos h

theorem changesLeft_relabel {p q : Program} (pass : Pass) (h : p.relabel = .ok q) :
    pass.changesLeft q = pass.changesLeft p := by
  cases pass <;> simp [changesLeft, Program.code_relabel h, Program.pool_relabel h]

/-- Runs a pass that has changed the program `changes` times until it finds nothing to change. -/
def settle (pass : Pass) (name : String) (changes : Nat) (p : Program) : Program.Outcome Nat :=
  match _hr : pass.run p with
  | ⟨q, .error e, events⟩ => ⟨q, .error e, events⟩
  | ⟨q, .ok false, events⟩ =>
    ⟨q, .ok changes,
      events ++ if changes = 0 then [] else [.settled name changes q.code.length]⟩
  | ⟨q, .ok true, events⟩ =>
    match _hl : q.relabel with
    | .error e => ⟨q, .error e, events⟩
    | .ok r => (settle pass name (changes + 1) r).after events
termination_by pass.changesLeft p
decreasing_by
  have h := @changesLeft_run pass p (by rw [_hr])
  rw [_hr] at h
  rw [changesLeft_relabel pass _hl]
  exact h

/-- Runs a pass until it finds nothing to change. The result says how often it has changed the
program; `name` is what the pass is called in the report. -/
def toFixpoint (pass : Pass) (name : String) (p : Program) : Program.Outcome Nat :=
  pass.settle name 0 p

end Pass

namespace Program

/-- Brings a program into normal form. -/
def normalize (selfContained : Bool) (p : Program) : Outcome Unit :=
  (Pass.unreachable.toFixpoint Pass.unreachable.name p).andThen fun _ p =>
  (if selfContained then Pass.selfContained.toFixpoint Pass.selfContained.name p
    else ⟨p, .ok 0, []⟩).andThen fun _ p =>
  (Pass.redundantGotos.toFixpoint Pass.redundantGotos.name p).andThen fun _ p => ⟨p, .ok (), []⟩

end Program
end AdventureLogic
