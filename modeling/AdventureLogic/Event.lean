import AdventureLogic.Error
import AdventureLogic.Instruction

/-!
# What happens on the way

Each stage reports what it does as a list of events. An event is a fact with a
level; its wording stands in `Event.message`. A `Logged` computation carries
the events that happened up to its end, or up to the fault that ended it.

Key definitions: `Event`, `Logged`. Key theorems: `Logged.result_bind`,
`Logged.result_bind_eq_ok`: what a logged computation returns does not depend
on what it reports.
-/

namespace AdventureLogic

/-- How much an event matters, most first. -/
inductive Level where
  | error
  | warn
  | info
  | debug
  | trace
  deriving DecidableEq, Inhabited

/-- A fact that a stage reports. -/
inductive Event where
  /-- An instruction was read. -/
  | decoded (i : Instruction)
  /-- All of the code was read. -/
  | decodedAll (instructions bytes : Nat)
  /-- An instruction was given its place. -/
  | placed (offset : Nat) (i : Instruction) (length : Nat)
  /-- The distance of a jump was filled in. -/
  | patched (source target : Nat) (distance : Int)
  /-- All of the code was written. -/
  | assembled (instructions bytes : Nat)
  /-- The nodes of a graph were numbered. -/
  | numbered (reached size : Nat) (root : String)
  /-- A block graph was built. -/
  | built (blocks instructions : Nat)
  /-- A pass changed the program until nothing was left to change. -/
  | settled (pass : String) (changes instructions : Nat)
  /-- An instruction that control never reaches was dropped. -/
  | droppedUnreachable (i : Instruction)
  /-- An instruction was put in so that control does not run into what follows. -/
  | bridged (i : Instruction)
  /-- A condition skips to a goto instead of leaving its region. -/
  | contained (condition target via : Address)
  /-- A goto to the next instruction was dropped. -/
  | droppedIdle (i : Instruction)
  /-- A goto after the same goto was dropped. -/
  | droppedRepeated (i : Instruction)
  /-- The condition of a block got an address. -/
  | branched (block : String) (address : Address) (yes no : String)
  /-- The blocks were compiled. -/
  | compiled (reached size : Nat)
  /-- A goto to a block was put in. -/
  | jumped (target : Address) (block : String)
  /-- A block that leaves the logic got a return. -/
  | returned (block : String) (address : Address)
  /-- The blocks were laid out. -/
  | stitched (blocks instructions : Nat)
  /-- A block graph was turned into code. -/
  | recompiled (blocks instructions labels : Nat)
  /-- Code was taken apart and put together again. -/
  | roundTrip (bytesIn blocks bytesOut : Nat)
  /-- Options were read from a file. -/
  | configured (path : String)
  deriving DecidableEq, Inhabited

namespace Level

/-- The rank of a level: the lower, the more it matters. -/
def rank : Level → Nat
  | .error => 0
  | .warn => 1
  | .info => 2
  | .debug => 3
  | .trace => 4

/-- The name of a level in log lines. -/
def name : Level → String
  | .error => "ERROR"
  | .warn => "WARN"
  | .info => "INFO"
  | .debug => "DEBUG"
  | .trace => "TRACE"

end Level

namespace Event

/-- How much an event matters. -/
def level : Event → Level
  | .decoded _ => .trace
  | .decodedAll _ _ => .debug
  | .placed _ _ _ => .trace
  | .patched _ _ _ => .trace
  | .assembled _ _ => .debug
  | .numbered _ _ _ => .trace
  | .built _ _ => .debug
  | .settled _ _ _ => .debug
  | .droppedUnreachable _ => .trace
  | .bridged _ => .trace
  | .contained _ _ _ => .warn
  | .droppedIdle _ => .trace
  | .droppedRepeated _ => .trace
  | .branched _ _ _ _ => .trace
  | .compiled _ _ => .debug
  | .jumped _ _ => .trace
  | .returned _ _ => .warn
  | .stitched _ _ => .debug
  | .recompiled _ _ _ => .info
  | .roundTrip _ _ _ => .info
  | .configured _ => .debug

/-- The wording of an event. -/
def message : Event → String
  | .decoded i => "decoded " ++ i.text
  | .decodedAll n bytes => s!"decoded {n} instructions from {bytes} bytes"
  | .placed offset i length =>
    Text.hex 4 offset ++ ": " ++ i.text ++ s!" ({length} bytes)"
  | .patched source target distance =>
    "patched jump at " ++ Text.hex 4 source ++ " -> " ++ Text.hex 4 target
      ++ s!" with offset {distance}"
  | .assembled n bytes => s!"assembled {n} instructions into {bytes} bytes"
  | .numbered reached size root =>
    s!"dominators: {reached} of {size} nodes reachable from {root}"
  | .built blocks n => s!"built basic block graph: {blocks} blocks from {n} instructions"
  | .settled pass changes n =>
    s!"pass '{pass}' reached fixpoint after {changes} changes ({n} instructions)"
  | .droppedUnreachable i => "dropping unreachable " ++ i.text
  | .bridged i => "inserting " ++ i.text ++ " to keep fall-through intact"
  | .contained condition target via =>
    "conditional at " ++ Instruction.addressText condition ++ " skipped out of its block to "
      ++ Instruction.addressText target ++ "; now skips to goto " ++ Instruction.addressText via
  | .droppedIdle i => "dropping goto to next instruction " ++ i.text
  | .droppedRepeated i => "dropping repeated " ++ i.text
  | .branched block a yes no =>
    block ++ ": condition " ++ Instruction.addressText a ++ s!", then {yes}, skip {no}"
  | .compiled reached size => s!"compiled {reached} of {size} blocks"
  | .jumped target block => "goto " ++ Instruction.addressText target ++ " for " ++ block
  | .returned block a =>
    block ++ " leaves the logic without return; adding one at " ++ Instruction.addressText a
  | .stitched blocks n => s!"stitched {blocks} blocks into {n} instructions"
  | .recompiled blocks n labels =>
    s!"recompiled {blocks} blocks into {n} instructions with {labels} labels"
  | .roundTrip bytesIn blocks bytesOut =>
    s!"round trip: {bytesIn} bytes in, {blocks} blocks, {bytesOut} bytes out"
  | .configured path => "loaded compiler options from " ++ path

/-- The log line of an event. -/
def line (e : Event) : String := e.level.name ++ " " ++ e.message

end Event

/-- A computation that may fail and reports what happens on the way, also if it fails. -/
structure Logged (α : Type) where
  result : Except Error α
  events : List Event := []

namespace Logged

variable {α β : Type}

/-- Goes on with `f` after a success; the events of both are kept in order. -/
def andThen (x : Logged α) (f : α → Logged β) : Logged β :=
  match x.result with
  | .error e => ⟨.error e, x.events⟩
  | .ok a =>
    let y := f a
    ⟨y.result, x.events ++ y.events⟩

instance : Monad Logged where
  pure a := ⟨.ok a, []⟩
  bind := andThen

instance : MonadExceptOf Error Logged where
  throw e := ⟨.error e, []⟩
  tryCatch x handle :=
    match x.result with
    | .error e =>
      let y := handle e
      ⟨y.result, x.events ++ y.events⟩
    | .ok a => ⟨.ok a, x.events⟩

/-- Changes what a computation returns. -/
def map (f : α → β) (x : Logged α) : Logged β := ⟨x.result.map f, x.events⟩

/-- Reports an event. -/
def report (e : Event) : Logged Unit := ⟨.ok (), [e]⟩

/-- A computation without events. -/
def ofExcept (x : Except Error α) : Logged α := ⟨x, []⟩

instance : MonadLift (Except Error) Logged := ⟨ofExcept⟩

@[simp] theorem result_pure (a : α) : (pure a : Logged α).result = .ok a := rfl

@[simp] theorem result_throw (e : Error) : (throw e : Logged α).result = .error e := rfl

@[simp] theorem result_map (f : α → β) (x : Logged α) :
    (x.map f).result = x.result.map f := rfl

@[simp] theorem result_report (e : Event) : (report e).result = .ok () := rfl

@[simp] theorem result_ofExcept (x : Except Error α) : (ofExcept x).result = x := rfl

@[simp] theorem result_liftM (x : Except Error α) : (liftM x : Logged α).result = x := rfl

@[simp] theorem result_monadLift (x : Except Error α) :
    (MonadLift.monadLift x : Logged α).result = x := rfl

theorem result_andThen (x : Logged α) (f : α → Logged β) :
    (x.andThen f).result = x.result.bind fun a => (f a).result := by
  unfold andThen
  cases x.result <;> rfl

@[simp] theorem result_bind (x : Logged α) (f : α → Logged β) :
    (x >>= f).result = x.result.bind fun a => (f a).result :=
  result_andThen x f

theorem id_map_logged (x : Logged α) : id <$> x = x := by
  obtain ⟨r, es⟩ := x
  cases r <;> simp [Functor.map, andThen]

theorem pure_bind_logged (a : α) (f : α → Logged β) : pure a >>= f = f a := by
  simp [pure, bind, andThen]

theorem bind_assoc_logged {γ : Type} (x : Logged α) (f : α → Logged β) (g : β → Logged γ) :
    x >>= f >>= g = x >>= fun a => f a >>= g := by
  obtain ⟨r, es⟩ := x
  cases r with
  | error e => rfl
  | ok a =>
    show andThen (andThen ⟨.ok a, es⟩ f) g = andThen ⟨.ok a, es⟩ fun b => andThen (f b) g
    unfold andThen
    dsimp only
    cases h : (f a).result <;> simp

instance : LawfulMonad Logged :=
  LawfulMonad.mk' Logged id_map_logged pure_bind_logged bind_assoc_logged

/-- A sequence succeeds exactly if both of its parts do. -/
theorem result_bind_eq_ok {x : Logged α} {f : α → Logged β} {b : β} :
    (x >>= f).result = .ok b ↔ ∃ a, x.result = .ok a ∧ (f a).result = .ok b := by
  rw [result_bind]
  cases h : x.result <;> simp [Except.bind]

end Logged
end AdventureLogic
