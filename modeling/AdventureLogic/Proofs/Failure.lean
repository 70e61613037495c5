import AdventureLogic.Proofs.BlockGraph.Extent
import AdventureLogic.Proofs.Layout.Placed
import AdventureLogic.Proofs.RoundTrip

/-!
# When a round trip fails

Code that can be decoded can be taken apart unless it is empty, a jump leads
nowhere or control can run off its end in a condition. The graph can be put
together again unless control can go round in a circle of gotos. What comes out
can be assembled unless a jump has become too long. Nothing else can go wrong
unless the addresses run out, and they last for 2²⁸ instructions at least.

Key definitions: `RunsOut`, `JumpsTooFar`. Key theorems: `BlockGraph.layoutBound_le`,
`BlockGraph.circular_iff`, `roundTrip_eq_error_iff`.
-/

namespace AdventureLogic

open Program (addresses)

/-! ### Putting a graph together -/

namespace BlockGraph

variable {code : List Instruction} {labels : LabelTable} {g : BlockGraph}

/-- **A layout needs at most five addresses for each instruction of the code**, and one more. -/
theorem layoutBound_le (hn : (addresses code).Nodup)
    (h : (ofInstructions code labels).result = .ok g) : layoutBound g ≤ 5 * code.length + 1 := by
  obtain ⟨start, hout, hoccupied⟩ := sum_occupied_le hn h
  have hsize := hout.size_le
  have hcommands := hoccupied _ g.toGraph.nodup_walk
  have hblocks : g.toGraph.preorder.length ≤ g.size :=
    length_le_of_forall_lt g.toGraph.nodup_walk fun n hn => Graph.lt_size_of_mem_walk hn
  have hbound : ∀ n, Layout.addressBound g n ≤ (occupied g start n).length + 1 := by
    intro n
    unfold Layout.addressBound occupied
    cases g.block? n <;> simp
  calc layoutBound g
      ≤ (g.toGraph.preorder.map fun n => (occupied g start n).length + 1).sum + 3 * g.size + 1 := by
        refine Nat.succ_le_succ (Nat.add_le_add_right (List.sum_le_sum fun n _ => hbound n) _)
    _ = (g.toGraph.preorder.map fun n => (occupied g start n).length).sum +
          g.toGraph.preorder.length + 3 * g.size + 1 := by simp [List.sum_map_add]
    _ ≤ 5 * code.length + 1 := by
        rw [Graph.preorder] at hblocks ⊢
        omega

/-- Blocks lead round in a circle exactly if gotos do. -/
theorem circular_iff (hn : (addresses code).Nodup)
    (h : (ofInstructions code labels).result = .ok g) : g.Circular ↔ GotoCycle code := by
  obtain ⟨start, hout, hreach⟩ := exists_reached_outlines hn h
  rw [hout.gotoCycle_iff hn hreach]
  constructor
  · rintro ⟨n, hcircle⟩
    obtain ⟨_, ⟨b, hb, _⟩, _⟩ := Relation.TransGen.head'_iff.1 hcircle
    exact ⟨n, lt_size_of_block? hb, hcircle⟩
  · rintro ⟨n, _, hcircle⟩
    exact ⟨n, hcircle⟩

end BlockGraph

/-! ### The whole way -/

/-- The addresses run out when the code is put together again. -/
def RunsOut (options : Options) (code : List UInt8) : Prop :=
  ∃ g, (decompile options code).result = .ok g ∧
    (g.recompile options.selfContained).result = .error (.conflictingAddress Address.last)

/-- The code can be put together again, but with a jump that is too long. -/
def JumpsTooFar (options : Options) (code : List UInt8) : Prop :=
  ∃ g listing, (decompile options code).result = .ok g ∧
    (g.recompile options.selfContained).result = .ok listing ∧
    Bytecode.LongJump options.commandSet listing.code

section Stages

variable {options : Options} {code : List UInt8} {p : List Instruction} {g : BlockGraph}

theorem result_decompile (h : (Bytecode.decode options.commandSet code).result = .ok p) :
    (decompile options code).result =
      (BlockGraph.ofInstructions p (LabelTable.ofInstructions p)).result := by
  simp only [decompile, disassemble, Logged.result_bind, h]
  rfl

/-- A round trip fails in one of its stages. -/
theorem roundTrip_eq_error {e : Error} : (roundTrip options code).result = .error e ↔
    (decompile options code).result = .error e ∨
      ∃ g, (decompile options code).result = .ok g ∧
        ((g.recompile options.selfContained).result = .error e ∨
          ∃ listing, (g.recompile options.selfContained).result = .ok listing ∧
            (Bytecode.assemble options.commandSet listing.code).result = .error e) := by
  constructor
  · intro h
    rcases Logged.result_bind_eq_error.1 h with h | ⟨g, hg, h⟩
    · exact .inl h
    rcases Logged.result_bind_eq_error.1 h with h | ⟨listing, hlisting, h⟩
    · exact .inr ⟨g, hg, .inl h⟩
    rcases Logged.result_bind_eq_error.1 h with h | ⟨bytes, _, h⟩
    · exact .inr ⟨g, hg, .inr ⟨listing, hlisting, h⟩⟩
    · rcases Logged.result_bind_eq_error.1 h with h | ⟨_, _, h⟩ <;> cases h
  · intro h
    unfold roundTrip
    rw [Logged.result_bind_eq_error]
    refine h.imp_right fun ⟨g, hg, h⟩ => ⟨g, hg, ?_⟩
    rw [Logged.result_bind_eq_error]
    refine h.imp_right fun ⟨listing, hlisting, h⟩ => ⟨listing, hlisting, ?_⟩
    exact Logged.result_bind_eq_error.2 (.inl h)

variable (hp : Bytecode.Decoded options.commandSet p)
  (hdecode : (Bytecode.decode options.commandSet code).result = .ok p)

include hp hdecode

/-- **Decoded code cannot be taken apart** if it is empty, a jump leads nowhere or control can come
to a condition at its end. -/
theorem exists_decompile_error_iff :
    (∃ e, (decompile options code).result = .error e) ↔
      p = [] ∨ Dangling p ∨ EndsInCondition p := by
  rw [result_decompile hdecode]
  have hbuild : (∃ g, (BlockGraph.ofInstructions p (LabelTable.ofInstructions p)).result = .ok g) ↔
      p ≠ [] ∧ ¬Dangling p ∧ ¬EndsInCondition p :=
    BlockGraph.exists_ofInstructions_iff hp.nodup hp.skip
  constructor
  · rintro ⟨e, h⟩
    by_contra hnone
    simp only [not_or] at hnone
    obtain ⟨g, hg⟩ := hbuild.2 hnone
    cases h.symm.trans hg
  · intro h
    cases hg : (BlockGraph.ofInstructions p (LabelTable.ofInstructions p)).result with
    | error e => exact ⟨e, rfl⟩
    | ok g =>
      have hnone := hbuild.1 ⟨g, hg⟩
      simp only [← not_or] at hnone
      exact absurd h hnone

variable (hg : (decompile options code).result = .ok g)

include hg

/-- The graph of decoded code cannot be put together if gotos lead round in a circle, or if the
addresses run out. -/
theorem recompile_eq_error {e : Error}
    (h : (g.recompile options.selfContained).result = .error e) :
    e = .conflictingAddress Address.last ∧ 2 ^ 28 < p.length ∨
      (∃ d, e = .unresolvedExit d) ∧ GotoCycle p := by
  rw [result_decompile hdecode] at hg
  have hbound := BlockGraph.layoutBound_le hp.nodup hg
  have hresolved := BlockGraph.resolved_ofInstructions hp.nodup hg
  rw [← BlockGraph.circular_iff hp.nodup hg]
  refine (BlockGraph.recompile_eq_error hresolved h).imp_left fun ⟨he, hroom⟩ => ⟨he, ?_⟩
  rw [AddressPool.room_empty] at hroom
  omega

/-- Unless the addresses run out, an exit is missing when the graph cannot be put together. -/
theorem unresolvedExit_of_recompile (hroom : ¬RunsOut options code) {e : Error}
    (h : (g.recompile options.selfContained).result = .error e) :
    (∃ d, e = .unresolvedExit d) ∧ GotoCycle p := by
  rcases recompile_eq_error hp hdecode hg h with ⟨rfl, _⟩ | hcycle
  · exact absurd ⟨g, hg, h⟩ hroom
  · exact hcycle

/-- **Unless the addresses run out, the graph cannot be put together** exactly if gotos lead round
in a circle. -/
theorem exists_recompile_error_iff (hroom : ¬RunsOut options code) :
    (∃ d, (g.recompile options.selfContained).result = .error (.unresolvedExit d)) ↔
      GotoCycle p := by
  constructor
  · rintro ⟨d, h⟩
    exact (unresolvedExit_of_recompile hp hdecode hg hroom h).2
  · intro hcycle
    cases h : (g.recompile options.selfContained).result with
    | error e =>
      obtain ⟨⟨d, rfl⟩, _⟩ := unresolvedExit_of_recompile hp hdecode hg hroom h
      exact ⟨d, rfl⟩
    | ok listing =>
      rw [result_decompile hdecode] at hg
      rw [← BlockGraph.circular_iff hp.nodup hg] at hcycle
      have hresolved := BlockGraph.resolved_ofInstructions hp.nodup hg
      exact absurd hcycle (BlockGraph.targeted_recompile hresolved h).2

variable {listing : Listing}
  (hlisting : (g.recompile options.selfContained).result = .ok listing)

include hlisting

/-- A jump is too long when what was put together cannot be assembled. -/
theorem jumpOutOfRange_of_assemble {e : Error}
    (h : (Bytecode.assemble options.commandSet listing.code).result = .error e) :
    (∃ a d, e = .jumpOutOfRange a d) ∧ Bytecode.LongJump options.commandSet listing.code := by
  rw [result_decompile hdecode] at hg
  exact Bytecode.assemble_eq_error (BlockGraph.realized_recompile hlisting).closed
    (fun i hi => (codable_recompile hp hg hlisting i hi).2) h

/-- **What was put together cannot be assembled** exactly if a jump is too long. -/
theorem exists_assemble_error_iff :
    (∃ e, (Bytecode.assemble options.commandSet listing.code).result = .error e) ↔
      Bytecode.LongJump options.commandSet listing.code := by
  constructor
  · rintro ⟨e, h⟩
    exact (jumpOutOfRange_of_assemble hp hdecode hg hlisting h).2
  · intro hlong
    cases h : (Bytecode.assemble options.commandSet listing.code).result with
    | error e => exact ⟨e, rfl⟩
    | ok bytes => exact absurd hlong (Bytecode.exists_assemble_iff.1 ⟨bytes, h⟩).2.2

omit hg hlisting in
/-- A round trip fails where its stages do. -/
theorem exists_roundTrip_error_iff (hroom : ¬RunsOut options code) :
    (∃ e, (roundTrip options code).result = .error e) ↔
      (∃ e, (decompile options code).result = .error e) ∨ GotoCycle p ∨
        JumpsTooFar options code := by
  constructor
  · rintro ⟨e, he⟩
    rcases roundTrip_eq_error.1 he with h | ⟨g, hg, h | ⟨listing, hlisting, h⟩⟩
    · exact .inl ⟨e, h⟩
    · exact .inr (.inl (unresolvedExit_of_recompile hp hdecode hg hroom h).2)
    · have hlong := (jumpOutOfRange_of_assemble hp hdecode hg hlisting h).2
      exact .inr (.inr ⟨g, listing, hg, hlisting, hlong⟩)
  · rintro (⟨e, h⟩ | hcycle | ⟨g, listing, hg, hlisting, hlong⟩)
    · exact ⟨e, roundTrip_eq_error.2 (.inl h)⟩
    · cases hg : (decompile options code).result with
      | error e => exact ⟨e, roundTrip_eq_error.2 (.inl hg)⟩
      | ok g =>
        obtain ⟨d, hd⟩ := (exists_recompile_error_iff hp hdecode hg hroom).2 hcycle
        exact ⟨_, roundTrip_eq_error.2 (.inr ⟨g, hg, .inl hd⟩)⟩
    · obtain ⟨e, he⟩ := (exists_assemble_error_iff hp hdecode hg hlisting).2 hlong
      exact ⟨e, roundTrip_eq_error.2 (.inr ⟨g, hg, .inr ⟨listing, hlisting, he⟩⟩)⟩

end Stages

/-- **When a round trip fails.** Let the code be decoded to `p`. The addresses do not run out if `p`
is no longer than 2²⁸. Unless they run out, a round trip fails exactly if `p` is empty, a jump of it
leads nowhere, control can come to a condition at its end or to gotos that lead round in a circle,
or a jump of what is put together is too long. The graph of `p` cannot be put together exactly in
the case of the gotos, for want of an exit, and what is put together cannot be assembled only
because of a jump that is too long. -/
theorem roundTrip_eq_error_iff (options : Options) (code : List UInt8) (p : List Instruction)
    (hlen : code.length ≤ 2 ^ 32)
    (hdecode : (Bytecode.decode options.commandSet code).result = .ok p) :
    (p.length ≤ 2 ^ 28 → ¬RunsOut options code) ∧
    (¬RunsOut options code →
      ((∃ e, (roundTrip options code).result = .error e) ↔
        p = [] ∨ Dangling p ∨ EndsInCondition p ∨ GotoCycle p ∨ JumpsTooFar options code) ∧
      ∀ g, (decompile options code).result = .ok g →
        (∀ e, (g.recompile options.selfContained).result = .error e → ∃ d, e = .unresolvedExit d) ∧
        ((∃ d, (g.recompile options.selfContained).result = .error (.unresolvedExit d)) ↔
          GotoCycle p) ∧
        ∀ listing, (g.recompile options.selfContained).result = .ok listing →
          ∀ e, (Bytecode.assemble options.commandSet listing.code).result = .error e →
            ∃ a d, e = .jumpOutOfRange a d) := by
  have hp := Bytecode.decoded_decode hdecode hlen
  refine ⟨?_, fun hroom => ⟨?_, fun g hg => ⟨fun e h => ?_, ?_, fun listing hlisting e h => ?_⟩⟩⟩
  · rintro hshort ⟨g, hg, h⟩
    rcases recompile_eq_error hp hdecode hg h with ⟨_, hlong⟩ | ⟨⟨d, hd⟩, _⟩
    · exact Nat.not_lt_of_le hshort hlong
    · cases hd
  · rw [exists_roundTrip_error_iff hp hdecode hroom, exists_decompile_error_iff hp hdecode,
      or_assoc, or_assoc]
  · exact (unresolvedExit_of_recompile hp hdecode hg hroom h).1
  · exact exists_recompile_error_iff hp hdecode hg hroom
  · exact (jumpOutOfRange_of_assemble hp hdecode hg hlisting h).1

/-- The bytes of a goto that leads to itself, behind a condition that can skip it. -/
def gotoLoopBytes : List UInt8 := [0xFF, 7, 5, 0xFF, 3, 0, 0xFE, 0xFD, 0xFF, 0]

theorem roundTrip_eq_error_iff_gotoLoopBytes :
    gotoLoopBytes.length ≤ 2 ^ 32 ∧ ∃ p, (Bytecode.decode {} gotoLoopBytes).result = .ok p ∧
      GotoCycle p ∧ (∃ e, (roundTrip {} gotoLoopBytes).result = .error e) ∧
      ∃ g d, (decompile {} gotoLoopBytes).result = .ok g ∧
        (g.recompile true).result = .error (.unresolvedExit d) := by
  have hlen : gotoLoopBytes.length ≤ 2 ^ 32 := by decide
  have hdecode : (Bytecode.decode {} gotoLoopBytes).result = .ok
      [.condition 0 [.test ⟨7, [5], false⟩] (some 9), .goto 6 6, .command 9 ⟨0, []⟩] :=
    Result.eq_ok_of_toOption (by decide +kernel)
  have hcycle : GotoCycle
      [.condition 0 [.test ⟨7, [5], false⟩] (some 9), .goto 6 6, .command 9 ⟨0, []⟩] := by
    refine ⟨1, ⟨List.cons_ne_nil _ _, ?_⟩, .single ⟨6, 6, rfl, rfl⟩⟩
    exact .single (.next rfl rfl (by decide))
  have hmap : (decompile {} gotoLoopBytes).result.map BlockGraph.size = .ok 3 := by
    have hset : ({} : Options).commandSet = {} := rfl
    simp only [decompile, disassemble, hset, Logged.result_bind, hdecode]
    cbv
  obtain ⟨g, hg, _⟩ := Result.map_eq_ok.1 hmap
  obtain ⟨hroom, hfails⟩ := roundTrip_eq_error_iff {} gotoLoopBytes _ hlen hdecode
  obtain ⟨herror, hstages⟩ := hfails (hroom (by decide))
  obtain ⟨d, hd⟩ := (hstages g hg).2.1.2 hcycle
  exact ⟨hlen, _, hdecode, hcycle, herror.2 (.inr (.inr (.inr (.inl hcycle)))), g, d, hg, hd⟩

end AdventureLogic
