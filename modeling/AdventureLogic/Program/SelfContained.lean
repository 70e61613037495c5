import AdventureLogic.Program.Basic

/-!
# Self-contained conditions

A condition at position `i` that skips to position `s` opens the region between
the two. It is self-contained if it skips forward and not past the end of the
innermost region around it; at the top level that is the end of the code.

A condition that is not gets a detour: a goto to its target is put at the end
of the region around it, and the condition skips to that goto. If control could
run into the goto from above, an instruction that leads past it is put in
first: a goto to what follows, or a return at the end of the code.

Key definitions: `Crossing`, `Program.crossing?`, `Program.selfContain`.
-/

namespace AdventureLogic
namespace Program

/-- A condition that skips out of the region around it. -/
structure Crossing where
  /-- The position of the condition. -/
  position : Nat
  /-- The end of the region around it. -/
  limit : Nat
  address : Address
  target : Address
  deriving DecidableEq, Inhabited

/-- Looks for the first crossing condition from `position` on. The ends of the regions that are
open are given from the inside out. -/
def crossingFrom (positions : NatMap Nat) (size : Nat) (regions : List Nat)
    (position : Nat) : List Instruction → Except Error (Option Crossing)
  | [] => .ok none
  | i :: rest =>
    let open_ := regions.dropWhile (· ≤ position)
    match i with
    | .condition a _ (some t) =>
      match positions.get? t.toNat with
      | none => .error (.danglingTarget a t)
      | some s =>
        if position < s ∧ s ≤ open_.headD size then
          crossingFrom positions size (s :: open_) (position + 1) rest
        else .ok (some ⟨position, open_.headD size, a, t⟩)
    | _ => crossingFrom positions size open_ (position + 1) rest

/-- The first condition that skips out of the region around it. -/
def crossing? (p : Program) : Except Error (Option Crossing) :=
  crossingFrom (positionsOf p.code) p.code.length [] 0 p.code

/-- Whether control can run from the instruction before a position into it. -/
def fallsInto (code : List Instruction) (position : Nat) : Bool :=
  position != 0 && (code[position - 1]?).any Instruction.fallsThrough

/-- Makes sure that control does not run into an instruction that is going to be put at `position`.
Gives the position where it can be put. -/
def bridge (p : Program) (position : Nat) : Outcome Nat :=
  if fallsInto p.code position then
    match p.pool.fresh with
    | .error e => ⟨p, .error e, []⟩
    | .ok (a, pool) =>
      let bypass : Instruction :=
        match p.code[position]? with
        | some next => .goto a next.address
        | none => .command a Command.ret
      ⟨{ p with code := p.code.insertIdx position bypass, pool := pool }, .ok (position + 1),
        [.bridged bypass]⟩
  else ⟨p, .ok position, []⟩

/-- Puts the goto of a crossing at `position` and lets the condition skip to it. -/
def detour (c : Crossing) (position : Nat) (p : Program) : Outcome Bool :=
  match p.pool.fresh with
  | .error e => ⟨p, .error e, []⟩
  | .ok (a, pool) =>
    let code := (p.code.insertIdx position (.goto a c.target)).modify c.position (·.retarget a)
    ⟨{ p with code := code, pool := pool }, .ok true, [.contained c.address c.target a]⟩

/-- Makes the first crossing condition self-contained. -/
def selfContain (p : Program) : Outcome Bool :=
  match p.crossing? with
  | .error e => ⟨p, .error e, []⟩
  | .ok none => ⟨p, .ok false, []⟩
  | .ok (some c) => (p.bridge c.limit).andThen (detour c)

theorem room_bridge (p : Program) (position : Nat) :
    (p.bridge position).program.pool.room ≤ p.pool.room := by
  unfold bridge
  split
  · split
    · exact Nat.le_refl _
    · rename_i hf
      exact Nat.le_of_lt (AddressPool.room_fresh hf)
  · exact Nat.le_refl _

theorem room_detour {c : Crossing} {position : Nat} {p : Program} {b : Bool}
    (h : (p.detour c position).result = .ok b) :
    (p.detour c position).program.pool.room < p.pool.room := by
  unfold detour at h ⊢
  split
  · rename_i hf
    rw [hf] at h
    cases h
  · rename_i hf
    exact AddressPool.room_fresh hf

/-- A change takes an address. -/
theorem room_selfContain {p : Program} (h : p.selfContain.result = .ok true) :
    p.selfContain.program.pool.room < p.pool.room := by
  unfold selfContain at h ⊢
  split
  · rename_i hc
    rw [hc] at h
    cases h
  · rename_i hc
    rw [hc] at h
    cases h
  · rename_i c hc
    rw [hc] at h
    unfold Outcome.andThen at h ⊢
    have hb := room_bridge p c.limit
    cases hr : (p.bridge c.limit).result with
    | error e =>
      simp only [hr] at h
      cases h
    | ok position =>
      simp only [hr] at h ⊢
      exact Nat.lt_of_lt_of_le (room_detour h) hb

end Program
end AdventureLogic
