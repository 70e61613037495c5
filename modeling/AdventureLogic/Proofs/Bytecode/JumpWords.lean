import AdventureLogic.Proofs.Bytecode.Writable

/-!
# Assembling fills in the words of jumps, and nothing else

Assembled code is cut into the slices that the layout gives: one for each
instruction, in code order, without gaps. The slice of a command holds the bytes
of the command. That of a goto or a condition holds its bytes up to the empty
word at their end, and there the distance from the end of the slice to the start
of the slice of the target.

Key definitions: `Bytecode.Placement.slice`, `Bytecode.Patched`,
`Bytecode.InRange`, `Bytecode.JumpsFilled`. Key theorems:
`Bytecode.Placed.map_slice`, `Bytecode.patched_of_fillIn`,
`Bytecode.assemble_fills_jumps`.
-/

namespace AdventureLogic
namespace Bytecode

open Program (addresses)

variable {set : CommandSet}

/-- The bytes of a code at a place. -/
def Placement.slice (bytes : List UInt8) (p : Placement) : List UInt8 :=
  (bytes.drop p.offset).take p.length

/-- The final bytes of an instruction at the place `p`, which was written as `written`. The last two
bytes of a jump hold the distance to the place of its target as a signed word, instead of an empty
one. -/
inductive Patched (table : OrderedMap Address Placement) (i : Instruction) (p : Placement)
    (written : List UInt8) : List UInt8 → Prop where
  | command {a : Address} {c : Command} (h : i = .command a c) : Patched table i p written written
  | jump {t : Address} {q : Placement} {body : List UInt8} {low high : UInt8}
    (htarget : i.target? = some t) (hq : table.get? t = some q) (hbody : written = body ++ [0, 0])
    (hword : Word.signed (Word.ofBytes low high) = (q.offset : Int) - (p.offset + p.length)) :
    Patched table i p written (body ++ [low, high])

/-- No distance from the end of a jump to the start of its target is too long for a word. -/
def InRange (code : List Instruction) (table : OrderedMap Address Placement) : Prop :=
  ∀ i ∈ code, ∀ p t q, table.get? i.address = some p → i.target? = some t →
    table.get? t = some q →
    -32768 ≤ (q.offset : Int) - (p.offset + p.length) ∧
      (q.offset : Int) - (p.offset + p.length) ≤ 32767

/-- The bytes are those of the instructions at the places of the layout, one after the other, with
the distances filled in. -/
structure JumpsFilled (set : CommandSet) (code : List Instruction)
    (table : OrderedMap Address Placement) (bytes : List UInt8) : Prop where
  keys_eq : table.keys = addresses code
  offset_eq : ∀ n p, table.values[n]? = some p →
    p.offset = ((table.values.take n).map Placement.length).sum
  length_eq : bytes.length = (table.values.map Placement.length).sum
  flatten_eq : bytes = (table.values.map (Placement.slice bytes)).flatten
  patched : ∀ i ∈ code, ∃ p written, table.get? i.address = some p ∧
    encodeInstruction set i = .ok written ∧ p.length = written.length ∧
      Patched table i p written (p.slice bytes)

theorem distance_offset (p q : Piece) :
    distance p q.offset = (q.offset : Int) - (p.offset + p.length) := by
  rw [distance, Piece.finish, Int.natCast_add]

theorem entries_tableOf {pieces : List Piece} (hn : (pieces.map Piece.address).Nodup) :
    (tableOf pieces).entries = pieces.map fun p => (p.address, p.placement) := by
  refine OrderedMap.entries_ofList ?_
  rwa [List.map_map]

theorem values_tableOf {pieces : List Piece} (hn : (pieces.map Piece.address).Nodup) :
    (tableOf pieces).values = pieces.map Piece.placement := by
  rw [OrderedMap.values, entries_tableOf hn, List.map_map]
  rfl

/-! ### Slices -/

theorem Placed.offset_eq_sum {pieces : List Piece} (h : Placed set 0 pieces) {n : Nat} {p : Piece}
    (hp : pieces[n]? = some p) : p.offset = ((pieces.take n).map Piece.length).sum := by
  have hsize : ∀ q ∈ pieces.take n, size set q.instruction = q.length := fun q hq => by
    rw [size, h.encode q (List.mem_of_mem_take hq)]
    rfl
  calc p.offset
    _ = 0 + offsetAt set (pieces.map Piece.instruction) n := (h.offset_eq hp).1
    _ = ((pieces.take n).map fun q => size set q.instruction).sum := by
      rw [Nat.zero_add, offsetAt, ← List.map_take, List.map_map]
      rfl
    _ = ((pieces.take n).map Piece.length).sum := by rw [List.map_congr_left hsize]

/-- **The slice of a piece holds what is filled in for it.** The induction is on the pieces that are
left; `front` holds the bytes of those before them. -/
theorem Placed.map_slice {found : OrderedMap Address Placement} {offset : Nat} {pieces : List Piece}
    {filled : List (List UInt8)} (h : Placed set offset pieces)
    (hfill : List.Forall₂ (fun p bytes => (fillIn found p).result = .ok bytes) pieces filled)
    (front : List UInt8) (hfront : front.length = offset) :
    (pieces.map Piece.placement).map (Placement.slice (front ++ filled.flatten)) = filled := by
  induction h generalizing filled front with
  | nil =>
    cases hfill
    rfl
  | @cons p rest he _ ih =>
    cases hfill with
    | @cons _ bytes _ filled hfirst hfilled =>
      have hlength := length_fillIn he hfirst
      have hslice : p.placement.slice (front ++ (bytes ++ filled.flatten)) = bytes := by
        rw [Placement.slice, Piece.placement, ← hfront, List.drop_left, ← hlength, List.take_left]
      have hfinish : (front ++ bytes).length = p.finish := by
        rw [List.length_append, hfront, hlength, Piece.finish]
      rw [List.map_cons, List.map_cons, List.flatten_cons, hslice, ← List.append_assoc,
        ih hfilled _ hfinish]

/-! ### Words -/

/-- **What is filled in is the distance to the place of the target.** -/
theorem patched_of_fillIn {pieces : List Piece} (hn : (pieces.map Piece.address).Nodup) {p : Piece}
    {bytes : List UInt8} (he : encodeInstruction set p.instruction = .ok p.bytes)
    (h : (fillIn (tableOf pieces) p).result = .ok bytes) :
    Patched (tableOf pieces) p.instruction p.placement p.bytes bytes := by
  rcases fillIn_eq_ok h with ⟨hnone, rfl⟩ | ⟨t, target, ht, hfound, hfits, rfl⟩
  · cases hi : p.instruction with
    | command a c => exact .command rfl
    | goto a t =>
      rw [hi] at hnone
      cases hnone
    | condition a clauses skip =>
      -- without a skip target there would be no bytes
      rw [hi] at hnone he
      cases hnone
      cases he
  · obtain ⟨q, hq, rfl⟩ := exists_of_offset?_tableOf hfound
    cases (offset?_tableOf hn hq).symm.trans hfound
    obtain ⟨body, hbody⟩ := exists_body he ht
    rw [withWord_eq hbody]
    refine .jump ht ((get?_tableOf hn).2 ⟨q, hq, rfl, rfl⟩) hbody ?_
    rw [Word.ofBytes_bytes, Word.signed_ofSigned hfits, distance_offset]
    rfl

/-- **Assembled code holds the distances of its jumps, and all else as it was written.** -/
theorem Assembled.jumpsFilled {code : List Instruction} {bytes : List UInt8} {pieces : List Piece}
    (h : Assembled set code bytes pieces) : JumpsFilled set code (tableOf pieces) bytes := by
  obtain ⟨filled, hfilled, hbytes⟩ := h.filled
  have hslices : (pieces.map Piece.placement).map (Placement.slice bytes) = filled := by
    rw [hbytes]
    exact h.placed.map_slice hfilled [] rfl
  have hnodup : (pieces.map Piece.address).Nodup := h.addresses_eq ▸ h.nodup
  have hvalues := values_tableOf hnodup
  rw [← hslices, List.map_map, List.forall₂_map_right_iff, List.forall₂_same] at hfilled
  refine ⟨?_, fun n p hp => ?_, ?_, ?_, fun i hi => ?_⟩
  · rw [OrderedMap.keys, entries_tableOf hnodup, List.map_map]
    exact h.addresses_eq
  · rw [hvalues, List.getElem?_map] at hp
    obtain ⟨q, hq, rfl⟩ := Option.map_eq_some_iff.1 hp
    rw [hvalues, ← List.map_take, List.map_map]
    exact h.placed.offset_eq_sum hq
  · rw [hvalues, List.map_map]
    exact h.length_eq
  · rw [hvalues, hslices, hbytes]
  · rw [← h.instructions] at hi
    obtain ⟨p, hp, rfl⟩ := List.mem_map.1 hi
    have he := h.placed.encode p hp
    exact ⟨p.placement, p.bytes, (get?_tableOf hnodup).2 ⟨p, hp, rfl, rfl⟩, he, rfl,
      patched_of_fillIn hnodup he (hfilled p hp)⟩

theorem Placed.inRange_iff {pieces : List Piece} (h : Placed set 0 pieces)
    (hn : (pieces.map Piece.address).Nodup) :
    InRange (pieces.map Piece.instruction) (tableOf pieces) ↔
      ¬LongJump set (pieces.map Piece.instruction) := by
  rw [h.longJump_iff]
  constructor
  · rintro hrange ⟨p, hp, q, hq, ht, hlong⟩
    rw [distance_offset] at hlong
    exact hlong (hrange _ (List.mem_map_of_mem hp) _ _ _ ((get?_tableOf hn).2 ⟨p, hp, rfl, rfl⟩) ht
      ((get?_tableOf hn).2 ⟨q, hq, rfl, rfl⟩))
  · intro hshort i hi p' t q' hp' ht hq'
    obtain ⟨p, hp, rfl⟩ := List.mem_map.1 hi
    cases hp'.symm.trans ((get?_tableOf hn).2 ⟨p, hp, rfl, rfl⟩)
    obtain ⟨q, hq, rfl, rfl⟩ := (get?_tableOf hn).1 hq'
    have hfits : Word.Fits (distance p q.offset) :=
      Decidable.not_not.1 fun hlong => hshort ⟨p, hp, q, hq, ht, hlong⟩
    rwa [distance_offset] at hfits

/-- **Code is assembled whenever it can be, and only the words of its jumps are filled in.** It can
be laid out exactly if its addresses are distinct and its instructions can be written. It can be
assembled exactly if moreover every target is the address of an instruction and no distance is too
long. What comes out are the bytes of the instructions at the places of the layout, with the
distances filled in. -/
theorem assemble_fills_jumps (set : CommandSet) (code : List Instruction) :
    ((∃ table, (layout set code).result = .ok table) ↔
      (addresses code).Nodup ∧ ∀ i ∈ code, i.Writable set) ∧
    ((∃ bytes, (assemble set code).result = .ok bytes) ↔
      ∃ table, (layout set code).result = .ok table ∧
        (∀ i ∈ code, ∀ t, i.target? = some t → t ∈ addresses code) ∧ InRange code table) ∧
    ∀ bytes, (assemble set code).result = .ok bytes →
      ∃ table, (layout set code).result = .ok table ∧ JumpsFilled set code table bytes := by
  refine ⟨?_, ?_, fun bytes h => ?_⟩
  · rw [← exists_place_iff]
    constructor
    · rintro ⟨table, h⟩
      obtain ⟨pieces, hplace, _⟩ := layout_eq_ok.1 h
      exact ⟨pieces, hplace⟩
    · rintro ⟨pieces, hplace⟩
      exact ⟨_, layout_eq_ok.2 ⟨pieces, hplace, rfl⟩⟩
  · rw [exists_assemble_iff]
    constructor
    · rintro ⟨hclosed, hwritable, hshort⟩
      obtain ⟨pieces, hplace⟩ := exists_place_iff.2 ⟨hclosed.nodup, hwritable⟩
      have hnodup := nodup_pieces hplace
      obtain ⟨hplaced, rfl, _, _⟩ := placeFrom_eq_ok hplace
      exact ⟨_, layout_eq_ok.2 ⟨pieces, hplace, rfl⟩, hclosed.target_mem,
        (hplaced.inRange_iff hnodup).2 hshort⟩
    · rintro ⟨table, h, htargets, hrange⟩
      obtain ⟨pieces, hplace, rfl⟩ := layout_eq_ok.1 h
      obtain ⟨hnodup, hwritable⟩ := exists_place_iff.1 ⟨pieces, hplace⟩
      have hdistinct := nodup_pieces hplace
      obtain ⟨hplaced, rfl, _, _⟩ := placeFrom_eq_ok hplace
      exact ⟨⟨hnodup, htargets⟩, hwritable, (hplaced.inRange_iff hdistinct).1 hrange⟩
  · obtain ⟨pieces, hpieces⟩ := exists_assembled h
    exact ⟨_, layout_eq_ok.2 ⟨pieces, hpieces.place, rfl⟩, hpieces.jumpsFilled⟩

theorem assemble_fills_jumps_sampleLoop :
    (assemble {} sampleLoop).result = .ok sampleBytes ∧
      ∃ table, (layout {} sampleLoop).result = .ok table ∧
        table.values.map Placement.offset = [0, 17, 19, 22] ∧ InRange sampleLoop table ∧
        JumpsFilled {} sampleLoop table sampleBytes := by
  have h : (assemble {} sampleLoop).result = .ok sampleBytes := by cbv
  have hoffsets : (layout {} sampleLoop).result.map (fun table =>
      table.values.map Placement.offset) = .ok [0, 17, 19, 22] := by cbv
  obtain ⟨_, hassemble, hfilled⟩ := assemble_fills_jumps {} sampleLoop
  obtain ⟨table, hlayout, hjumps⟩ := hfilled sampleBytes h
  obtain ⟨table', hlayout', _, hrange⟩ := hassemble.1 ⟨sampleBytes, h⟩
  cases hlayout.symm.trans hlayout'
  rw [hlayout] at hoffsets
  exact ⟨h, table, hlayout, Except.ok.inj hoffsets, hrange, hjumps⟩

end Bytecode
end AdventureLogic
