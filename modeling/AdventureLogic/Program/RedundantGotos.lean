import AdventureLogic.Program.Basic

/-!
# Dropping redundant gotos

A goto to the instruction right after it does nothing, and a goto right after
the same goto never runs. Both are dropped. Jumps to a dropped goto are sent on
to where it led, and so is the name of its label.

Key definitions: `Program.Verdict`, `Program.redirects`, `Program.follow`,
`Program.dropRedundantGotos`.
-/

namespace AdventureLogic
namespace Program

/-- What becomes of an instruction. -/
inductive Verdict where
  | keep
  /-- A goto to the next instruction. -/
  | idle (target : Address)
  /-- A goto after the same goto, which stands at `kept`. -/
  | repeated (kept : Address)
  deriving DecidableEq, Inhabited

namespace Verdict

/-- Where jumps to a dropped instruction are sent. -/
def redirect? : Verdict → Option Address
  | .keep => none
  | .idle t => some t
  | .repeated k => some k

/-- What is reported about a dropped instruction. -/
def event? (i : Instruction) : Verdict → Option Event
  | .keep => none
  | .idle _ => some (.droppedIdle i)
  | .repeated _ => some (.droppedRepeated i)

end Verdict

/-- The verdict on an instruction, given the address of the instruction before it, the last one
that was kept, and the address of the next. -/
def verdict (previous : Option Address) (kept : Option Instruction) (next : Option Address) :
    Instruction → Verdict
  | .goto _ t =>
    if next = some t then .idle t
    else
      match kept with
      | some (.goto k u) => if previous = some k ∧ u = t then .repeated k else .keep
      | _ => .keep
  | _ => .keep

/-- The verdicts on all instructions. -/
def judge (previous : Option Address) (kept : Option Instruction) :
    List Instruction → List (Instruction × Verdict)
  | [] => []
  | i :: rest =>
    let v := verdict previous kept (rest.head?.map Instruction.address) i
    (i, v) :: judge (some i.address) (if v = .keep then some i else kept) rest

theorem length_judge : ∀ (previous : Option Address) (kept : Option Instruction)
    (code : List Instruction), (judge previous kept code).length = code.length
  | _, _, [] => rfl
  | _, _, i :: rest => by simp [judge, length_judge _ _ rest]

/-- Where jumps to the dropped instructions are sent, by address. -/
def redirects (judged : List (Instruction × Verdict)) : OrderedMap Address Address :=
  OrderedMap.ofList (judged.filterMap fun e => e.2.redirect?.map fun t => (e.1.address, t))

/-- Follows redirections from an address, for at most `steps` steps. -/
def follow (redirects : OrderedMap Address Address) : Nat → Address → Address
  | 0, a => a
  | steps + 1, a =>
    match redirects.get? a with
    | none => a
    | some b => follow redirects steps b

/-- Where an address leads in the end. -/
def resolve (redirects : OrderedMap Address Address) (a : Address) : Address :=
  follow redirects (redirects.size + 1) a

/-- Sends the jump of an instruction on to where it leads in the end. -/
def redirect (redirects : OrderedMap Address Address) (i : Instruction) : Instruction :=
  match i.target? with
  | none => i
  | some t => i.retarget (resolve redirects t)

/-- Moves the label of a dropped instruction to where its jumps now lead, unless there is one. -/
def moveLabel (redirects : OrderedMap Address Address) (labels : LabelTable) (dropped : Address) :
    LabelTable :=
  match labels.get? dropped with
  | none => labels
  | some l =>
    let a := resolve redirects dropped
    (labels.erase dropped).insertIfNew a { l with address := a }

/-- Drops the redundant gotos. -/
def dropRedundantGotos (p : Program) : Outcome Bool :=
  let judged := judge none none p.code
  if judged.all fun e => e.2 = .keep then ⟨p, .ok false, []⟩
  else
    let sent := redirects judged
    let kept := (judged.filter fun e => e.2 = .keep).map Prod.fst
    { program :=
        { p with
          code := kept.map (redirect sent)
          labels := sent.keys.foldl (moveLabel sent) p.labels }
      result := .ok true
      events := judged.filterMap fun e => e.2.event? e.1 }

/-- A change makes the program shorter. -/
theorem length_dropRedundantGotos {p : Program} (h : p.dropRedundantGotos.result = .ok true) :
    p.dropRedundantGotos.program.code.length < p.code.length := by
  unfold dropRedundantGotos at h ⊢
  dsimp only at h ⊢
  split at h
  · cases h
  · rename_i hall
    rw [if_neg hall, ← length_judge none none p.code]
    simp only [List.length_map]
    rw [List.length_filter_lt_length_iff_exists]
    simpa using hall

end Program
end AdventureLogic
