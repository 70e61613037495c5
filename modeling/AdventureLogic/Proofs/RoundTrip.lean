import AdventureLogic.Compiler
import AdventureLogic.Proofs.BlockGraph.Discovery
import AdventureLogic.Proofs.BlockGraph.Resolved
import AdventureLogic.Proofs.Bytecode.Assemble
import AdventureLogic.Proofs.Bytecode.Decode
import AdventureLogic.Proofs.Layout.Placed
import AdventureLogic.Proofs.Layout.Recompile

/-!
# A round trip changes no run

Code that is taken apart and put together again runs as before. Each step on the
way changes no run: finding the blocks, laying them out, bringing the code into
normal form, and giving instructions the offsets at which they are assembled as
addresses. What the code can show comes from decoded instructions, so it can be
written and read again.

Key definition: `Effect.Codable`. Key theorems: `codable_recompile`, `roundTrip_equivalent`.
-/

namespace AdventureLogic

open Program (addresses)

/-- The effect is that of an instruction that can be read and written. -/
def Effect.Codable (set : CommandSet) : Effect → Prop
  | .command c => Opcode.actionArity? c.opcode = some c.args.length
  | .test clauses => ∀ clause ∈ clauses, clause.WellFormed set ∧ clause.Writable set

theorem Effect.codable_ret (set : CommandSet) : (Effect.command Command.ret).Codable set := by
  show Opcode.actionArity? Opcode.ret = some 0
  decide +kernel

/-- Whether an instruction can be read and written depends on its effect only, if it has the target
that it needs. -/
theorem Instruction.codable_iff {set : CommandSet} {i : Instruction}
    (hskip : ∀ a clauses, i ≠ .condition a clauses none) :
    (i.WellFormed set ∧ i.Writable set) ↔ ∀ e, i.effect? = some e → e.Codable set := by
  cases i with
  | command a c => simp [Instruction.WellFormed, Instruction.Writable, effect?, Effect.Codable]
  | goto a t => simp [Instruction.WellFormed, Instruction.Writable, effect?]
  | condition a clauses skip =>
    cases skip with
    | none => exact absurd rfl (hskip a clauses)
    | some t =>
      simp [Instruction.WellFormed, Instruction.Writable, effect?, Effect.Codable, forall_and]

/-- **Code that was decoded, taken apart and put together again can be written and read again.** -/
theorem codable_recompile {set : CommandSet} {code : List Instruction} {labels : LabelTable}
    {g : BlockGraph} {selfContained : Bool} {listing : Listing}
    (hcode : Bytecode.Decoded set code)
    (hg : (BlockGraph.ofInstructions code labels).result = .ok g)
    (h : (g.recompile selfContained).result = .ok listing) :
    ∀ i ∈ listing.code, i.WellFormed set ∧ i.Writable set := by
  have hresolved := BlockGraph.resolved_ofInstructions hcode.nodup hg
  obtain ⟨htargeted, _⟩ := BlockGraph.targeted_recompile hresolved h
  obtain ⟨_, heffects⟩ := BlockGraph.equivalent_ofInstructions hcode.nodup hg
  intro i hi
  refine (Instruction.codable_iff (htargeted i hi)).2 fun e he => ?_
  have hmem : e ∈ effectsOf listing.code := List.mem_filterMap.2 ⟨i, hi, he⟩
  rcases (BlockGraph.realized_recompile h).effects e hmem with rfl | ⟨n, b, hb, hblock⟩
  · exact Effect.codable_ret set
  · obtain ⟨j, hj, hje⟩ := List.mem_filterMap.1 (heffects n b hb hblock)
    have hcodable := (Instruction.codable_iff (hcode.skip j hj)).1
      ⟨hcode.wellFormed j hj, hcode.writable j hj⟩
    exact hcodable e hje

/-- What a round trip goes through. -/
theorem roundTrip_eq_ok {options : Options} {code : List UInt8} {trip : RoundTrip}
    (h : (roundTrip options code).result = .ok trip) :
    ∃ before labels, (Bytecode.decode options.commandSet code).result = .ok before ∧
      (BlockGraph.ofInstructions before labels).result = .ok trip.graph ∧
      (trip.graph.recompile options.selfContained).result = .ok trip.listing ∧
      (Bytecode.assemble options.commandSet trip.listing.code).result = .ok trip.code := by
  obtain ⟨graph, hgraph, h⟩ := Logged.result_bind_eq_ok.1 h
  obtain ⟨listing, hlisting, h⟩ := Logged.result_bind_eq_ok.1 h
  obtain ⟨bytes, hbytes, h⟩ := Logged.result_bind_eq_ok.1 h
  obtain ⟨_, _, h⟩ := Logged.result_bind_eq_ok.1 h
  cases h
  obtain ⟨listed, hlisted, hgraph⟩ := Logged.result_bind_eq_ok.1 hgraph
  obtain ⟨before, hbefore, hlisted⟩ := Logged.result_bind_eq_ok.1 hlisted
  cases hlisted
  exact ⟨before, _, hbefore, hgraph, hlisting, hbytes⟩

/-- **A round trip changes no run.** The result can be decoded; for every sequence of decisions, the
runs of the decoded codes have the same effects and agree on whether they have halted. Addresses
are 32-bit numbers, so they tell the instructions of the result apart if that has at most 2³²
bytes; the listing from which it is assembled runs like the code in any case. -/
theorem roundTrip_equivalent (options : Options) (code : List UInt8) (trip : RoundTrip)
    (hlen : code.length < 2 ^ 32) (h : (roundTrip options code).result = .ok trip) :
    ∃ before after, (Bytecode.decode options.commandSet code).result = .ok before ∧
      (Bytecode.decode options.commandSet trip.code).result = .ok after ∧
      (Machine.ofCode before).Equivalent (Machine.ofCode trip.listing.code) ∧
      (trip.code.length ≤ 2 ^ 32 → (Machine.ofCode before).Equivalent (Machine.ofCode after)) := by
  obtain ⟨before, labels, hbefore, hgraph, hlisting, hbytes⟩ := roundTrip_eq_ok h
  have hdecoded := Bytecode.decoded_decode hbefore (Nat.le_of_lt hlen)
  obtain ⟨hdiscovered, _⟩ := BlockGraph.equivalent_ofInstructions hdecoded.nodup hgraph
  have hrealized := BlockGraph.realized_recompile hlisting
  have hw : ∀ i ∈ trip.listing.code, i.WellFormed options.commandSet :=
    fun i hi => (codable_recompile hdecoded hgraph hlisting i hi).1
  obtain ⟨pieces, hpieces⟩ := Bytecode.exists_assembled hbytes
  have hlisted := hdiscovered.trans hrealized.equivalent
  refine ⟨before, _, hbefore, hpieces.decode_eq hw, hlisted, fun hfits => ?_⟩
  exact hlisted.trans
    (Machine.equivalent_rename hrealized.closed (hpieces.relocation_injective hfits))

/-- The bytes of a loop whose condition has a group and long arguments. -/
def loopBytes : List UInt8 :=
  [0xFF, 0xFD, 7, 5, 0xFC, 9, 2, 14, 2, 44, 1, 15, 39, 0xFC, 0xFF, 5, 0, 12, 5, 0xFE, 234, 255, 0]

theorem roundTrip_equivalent_loopBytes :
    loopBytes.length < 2 ^ 32 ∧ ∃ trip,
      (roundTrip { selfContained := false } loopBytes).result = .ok trip ∧ trip.code = loopBytes ∧
        ∃ before after, (Bytecode.decode {} loopBytes).result = .ok before ∧
          (Bytecode.decode {} trip.code).result = .ok after ∧
          (Machine.ofCode before).Equivalent (Machine.ofCode trip.listing.code) ∧
          (Machine.ofCode before).Equivalent (Machine.ofCode after) := by
  have hdecode : (Bytecode.decode {} loopBytes).result = .ok
      [.condition 0 [.test ⟨7, [5], true⟩, .anyOf [⟨9, [2], false⟩, ⟨14, [300, 9999], false⟩]]
        (some 22), .command 17 ⟨12, [5]⟩, .goto 19 0, .command 22 ⟨0, []⟩] :=
    Result.eq_ok_of_toOption (by decide +kernel)
  have hmap : (roundTrip { selfContained := false } loopBytes).result.map RoundTrip.code =
      .ok loopBytes := by
    have hset : ({ selfContained := false } : Options).commandSet = {} := rfl
    simp only [roundTrip, decompile, disassemble, hset, Logged.result_bind, hdecode]
    cbv
  have hlen : loopBytes.length < 2 ^ 32 := by decide
  obtain ⟨trip, htrip, hcode⟩ := Result.map_eq_ok.1 hmap
  obtain ⟨before, after, hbefore, hafter, hlisted, hfits⟩ :=
    roundTrip_equivalent _ _ trip hlen htrip
  have hequiv := hfits (hcode.symm ▸ Nat.le_of_lt hlen)
  exact ⟨hlen, trip, htrip, hcode, before, after, hbefore, hafter, hlisted, hequiv⟩

end AdventureLogic
