import Mathlib
import AdventureLogic.Proofs.Behaviour.Code
import AdventureLogic.Proofs.Bytecode.Grammar
import AdventureLogic.Proofs.Bytecode.Pieces

/-!
# Decoding undoes assembling

Assembled code consists of pieces that stand one after the other, each with the
bytes of its instruction and the distance of its jump filled in. A piece is read
as its instruction with other addresses: those of the layout, where each
instruction is called by the offset at which it stands.

Key definition: `Bytecode.relocation`. Key theorems:
`Bytecode.readInstruction_piece`, `Bytecode.decodeFrom_pieces`,
`Bytecode.decode_of_assemble`.
-/

namespace AdventureLogic
namespace Bytecode

open Program (addresses)

variable {set : CommandSet}

/-- The address that an instruction has in decoded code: the offset at which the layout puts it. -/
def relocation (table : OrderedMap Address Placement) (a : Address) : Address :=
  UInt32.ofNat ((offset? table a).getD 0)

namespace Placed

variable {offset : Nat} {pieces : List Piece}

theorem encode (h : Placed set offset pieces) :
    ∀ p ∈ pieces, encodeInstruction set p.instruction = .ok p.bytes := by
  induction h with
  | nil => exact fun _ hp => nomatch hp
  | cons hp _ ih =>
    intro q hq
    rcases List.mem_cons.1 hq with rfl | hq
    · exact hp
    · exact ih q hq

/-- A piece stands between the start of the first one and the end of the last one. -/
theorem bounds (h : Placed set offset pieces) : ∀ p ∈ pieces, offset ≤ p.offset ∧
    p.finish ≤ offset + (pieces.map Piece.length).sum := by
  induction h with
  | nil => exact fun _ hp => nomatch hp
  | @cons p rest hp _ ih =>
    have hfinish : p.finish = p.offset + p.length := rfl
    intro q hq
    rw [List.map_cons, List.sum_cons]
    rcases List.mem_cons.1 hq with rfl | hq
    · exact ⟨Nat.le_refl _, by omega⟩
    · have := ih q hq
      omega

/-- Pieces that come later stand later. -/
theorem pairwise (h : Placed set offset pieces) :
    pieces.Pairwise fun p q => p.offset < q.offset := by
  induction h with
  | nil => exact .nil
  | @cons p rest hp hrest ih =>
    refine .cons (fun q hq => ?_) ih
    have hpos := List.length_pos_iff.2 (encodeInstruction_ne_nil hp)
    have hq := (hrest.bounds q hq).1
    exact Nat.lt_of_lt_of_le (Nat.lt_add_of_pos_right hpos) hq

end Placed

/-- What is filled in: nothing, or the distance to where the target stands. -/
theorem fillIn_eq_ok {found : OrderedMap Address Placement} {p : Piece} {bytes : List UInt8}
    (h : (fillIn found p).result = .ok bytes) :
    p.instruction.target? = none ∧ bytes = p.bytes ∨
      ∃ t target, p.instruction.target? = some t ∧ offset? found t = some target ∧
        Word.Fits (distance p target) ∧ bytes = p.withWord (Word.ofSigned (distance p target)) := by
  unfold fillIn at h
  split at h
  · rename_i hnone
    exact .inl ⟨hnone, (Except.ok.inj h).symm⟩
  · rename_i t ht
    split at h
    · cases h
    · rename_i target htarget
      split at h
      · rename_i hfits
        exact .inr ⟨t, target, ht, htarget, hfits, (Except.ok.inj h).symm⟩
      · cases h

/-- A distance is read back as the target that it leads to. -/
theorem jump_distance {size source target offset : Nat} {d : Int} (hd : Word.Fits d)
    (htarget : (offset : Int) + 2 + d = target) (hsize : target ≤ size) (rest : List UInt8) :
    Cursor.jump size source ⟨offset, Word.bytes (Word.ofSigned d) ++ rest⟩ =
      .ok (UInt32.ofNat target, ⟨offset + 2, rest⟩) := by
  refine Result.bind_eq_ok.2 ⟨_, reads_word _ offset rest, ?_⟩
  have hlen : (Word.bytes (Word.ofSigned d)).length = 2 := rfl
  have hsum : ((offset + 2 : Nat) : Int) + d = target := by omega
  dsimp only
  rw [hlen, Word.signed_ofSigned hd, hsum, if_pos (by omega)]
  rfl

theorem actionArity?_conditionMarker : Opcode.actionArity? Opcode.conditionMarker = none := by
  decide +kernel

theorem actionArity?_gotoMarker : Opcode.actionArity? Opcode.gotoMarker = none := by
  decide +kernel

theorem readInstruction_command {c : Command} (h : Opcode.actionArity? c.opcode = some c.args.length)
    (size offset : Nat) (rest : List UInt8) :
    readInstruction set size ⟨offset, c.opcode :: c.args ++ rest⟩ =
      .ok (.command (UInt32.ofNat offset) c, ⟨offset + (c.args.length + 1), rest⟩) := by
  have hcondition : c.opcode ≠ Opcode.conditionMarker := by
    intro he
    rw [he, actionArity?_conditionMarker] at h
    cases h
  have hgoto : c.opcode ≠ Opcode.gotoMarker := by
    intro he
    rw [he, actionArity?_gotoMarker] at h
    cases h
  refine Result.bind_eq_ok.2 ⟨_, reads_byte _ _ _, ?_⟩
  dsimp only
  rw [if_neg hcondition, if_neg hgoto, h, Nat.add_comm _ 1, ← Nat.add_assoc]
  exact Result.bind_eq_ok.2 ⟨_, reads_bytes c.args _ rest, rfl⟩

theorem readInstruction_goto {size offset target : Nat} {d : Int} (hd : Word.Fits d)
    (htarget : (offset : Int) + 3 + d = target) (hsize : target ≤ size) (rest : List UInt8) :
    readInstruction set size
        ⟨offset, [Opcode.gotoMarker] ++ Word.bytes (Word.ofSigned d) ++ rest⟩ =
      .ok (.goto (UInt32.ofNat offset) (UInt32.ofNat target), ⟨offset + 3, rest⟩) := by
  rw [List.append_assoc]
  refine Result.bind_eq_ok.2 ⟨_, reads_byte _ _ _, ?_⟩
  refine Result.bind_eq_ok.2 ⟨_, jump_distance hd ?_ hsize rest, rfl⟩
  simp only [List.length_singleton]
  omega

theorem readInstruction_condition {size offset target : Nat} {d : Int} {clauses : List Clause}
    {front : List UInt8} (hclauses : Reads (readClauses set none false) front clauses)
    (hd : Word.Fits d) (htarget : (offset : Int) + 1 + front.length + 2 + d = target)
    (hsize : target ≤ size) (rest : List UInt8) :
    readInstruction set size
        ⟨offset, Opcode.conditionMarker :: front ++ Word.bytes (Word.ofSigned d) ++ rest⟩ =
      .ok (.condition (UInt32.ofNat offset) clauses (some (UInt32.ofNat target)),
        ⟨offset + 1 + front.length + 2, rest⟩) := by
  rw [List.append_assoc, List.cons_append]
  refine Result.bind_eq_ok.2 ⟨_, reads_byte _ _ _, ?_⟩
  refine Result.bind_eq_ok.2 ⟨_, hclauses _ _, ?_⟩
  refine Result.bind_eq_ok.2 ⟨_, jump_distance hd ?_ hsize rest, rfl⟩
  simp only [List.length_singleton]
  omega

/-- Filling in the distance of a jump does not change the number of bytes. -/
theorem length_fillIn {found : OrderedMap Address Placement} {p : Piece} {bytes : List UInt8}
    (he : encodeInstruction set p.instruction = .ok p.bytes)
    (h : (fillIn found p).result = .ok bytes) : bytes.length = p.length := by
  rcases fillIn_eq_ok h with ⟨_, rfl⟩ | ⟨t, target, ht, _, _, rfl⟩
  · rfl
  · obtain ⟨body, hbody⟩ := exists_body he ht
    rw [withWord_eq hbody, Piece.length, hbody, List.length_append, List.length_append]
    rfl

/-- **A piece is read as its instruction**, with the addresses of the layout. -/
theorem readInstruction_piece {p : Piece} {found : OrderedMap Address Placement} {bytes : List UInt8}
    {size : Nat} {f : Address → Address} (hw : p.instruction.WellFormed set)
    (he : encodeInstruction set p.instruction = .ok p.bytes)
    (hfill : (fillIn found p).result = .ok bytes)
    (haddress : f p.address = UInt32.ofNat p.offset)
    (htarget : ∀ t n, offset? found t = some n → n ≤ size ∧ f t = UInt32.ofNat n) (rest : List UInt8) :
    readInstruction set size ⟨p.offset, bytes ++ rest⟩ =
      .ok (p.instruction.rename f, ⟨p.finish, rest⟩) := by
  obtain ⟨i, offset, written⟩ := p
  dsimp only at hw he haddress ⊢
  cases i with
  | command a c =>
    cases he
    rcases fillIn_eq_ok hfill with ⟨_, rfl⟩ | ⟨t, target, ht, _⟩
    · refine (readInstruction_command hw size offset rest).trans ?_
      rw [← haddress]
      rfl
    · cases ht
  | goto a t =>
    cases he
    rcases fillIn_eq_ok hfill with ⟨hnone, _⟩ | ⟨t', target, ht, hfound, hfits, rfl⟩
    · cases hnone
    · cases ht
      obtain ⟨hsize, hf⟩ := htarget t target hfound
      have hbytes : ([Opcode.gotoMarker, 0, 0] : List UInt8) = [Opcode.gotoMarker] ++ [0, 0] := rfl
      rw [withWord_eq hbytes]
      refine (readInstruction_goto hfits ?_ hsize rest).trans ?_
      · have hfinish : Piece.finish ⟨.goto a t, offset, [Opcode.gotoMarker, 0, 0]⟩ = offset + 3 := rfl
        rw [distance, hfinish, Int.natCast_add]
        omega
      · rw [← haddress, ← hf]
        rfl
  | condition a clauses skip =>
    cases skip with
    | none => cases he
    | some t =>
      obtain ⟨parts, hparts, he⟩ := Result.bind_eq_ok.1 he
      have hreads := reads_clauses (List.Subset.refl _)
        (spellsClauses_of_encode (Result.mapM_eq_ok.1 hparts) hw)
      have hbytes : written = Opcode.conditionMarker :: (parts.flatten ++ [Opcode.conditionMarker]) ++
          [0, 0] := by
        rw [← Except.ok.inj he]
        simp
      generalize parts.flatten ++ [Opcode.conditionMarker] = front at hreads hbytes
      rcases fillIn_eq_ok hfill with ⟨hnone, _⟩ | ⟨t', target, ht, hfound, hfits, rfl⟩
      · cases hnone
      · cases ht
        obtain ⟨hsize, hf⟩ := htarget t target hfound
        have hfinish : Piece.finish ⟨.condition a clauses (some t), offset, written⟩ =
            offset + 1 + front.length + 2 := by
          rw [Piece.finish, Piece.length, hbytes, List.length_append, List.length_cons]
          simp only [List.length_cons, List.length_nil]
          omega
        rw [withWord_eq hbytes]
        refine (readInstruction_condition hreads hfits ?_ hsize rest).trans ?_
        · rw [distance, hfinish]
          omega
        · rw [← haddress, ← hf, hfinish]
          rfl

/-- An instruction is read, and then those after it. -/
theorem decodeFrom_cons {size offset stop : Nat} {i : Instruction} {code : List Instruction}
    {bytes rest : List UInt8} (hne : bytes ≠ [])
    (hread : readInstruction set size ⟨offset, bytes ++ rest⟩ = .ok (i, ⟨stop, rest⟩))
    (hrest : (decodeFrom set size ⟨stop, rest⟩).result = .ok code) :
    (decodeFrom set size ⟨offset, bytes ++ rest⟩).result = .ok (i :: code) := by
  have hempty : ¬(bytes ++ rest).isEmpty := by simp [hne]
  rw [decodeFrom]
  dsimp only
  rw [if_neg hempty]
  split
  · rename_i e hread'
    cases hread.symm.trans hread'
  · rename_i next hread'
    cases hread.symm.trans hread'
    refine Logged.result_bind_eq_ok.2 ⟨(), rfl, ?_⟩
    rw [Logged.result_map, hrest]
    rfl

/-- **Pieces are read one after the other.** -/
theorem decodeFrom_pieces {found : OrderedMap Address Placement} {f : Address → Address} {size offset : Nat}
    {pieces : List Piece} {filled : List (List UInt8)} (hp : Placed set offset pieces)
    (hfill : List.Forall₂ (fun p bytes => (fillIn found p).result = .ok bytes) pieces filled)
    (hw : ∀ p ∈ pieces, p.instruction.WellFormed set)
    (haddress : ∀ p ∈ pieces, f p.address = UInt32.ofNat p.offset)
    (htarget : ∀ t n, offset? found t = some n → n ≤ size ∧ f t = UInt32.ofNat n) :
    (decodeFrom set size ⟨offset, filled.flatten⟩).result =
      .ok (pieces.map fun p => p.instruction.rename f) := by
  induction hp generalizing filled with
  | nil =>
    cases hfill
    rw [decodeFrom]
    rfl
  | @cons p rest he hrest ih =>
    cases hfill with
    | @cons _ bytes _ filled hfirst hfilled =>
      have hlen := length_fillIn he hfirst
      have hpos := List.length_pos_iff.2 (encodeInstruction_ne_nil he)
      have hne : bytes ≠ [] := List.length_pos_iff.1 (hlen ▸ hpos)
      have hread := readInstruction_piece (hw p List.mem_cons_self) he hfirst
        (haddress p List.mem_cons_self) htarget filled.flatten
      exact decodeFrom_cons hne hread (ih hfilled (fun q hq => hw q (List.mem_cons_of_mem _ hq))
        fun q hq => haddress q (List.mem_cons_of_mem _ hq))

/-- Assembled code consists of its pieces. -/
structure Assembled (set : CommandSet) (code : List Instruction) (bytes : List UInt8)
    (pieces : List Piece) : Prop where
  place : (place set code).result = .ok pieces
  placed : Placed set 0 pieces
  instructions : pieces.map Piece.instruction = code
  nodup : (addresses code).Nodup
  filled : ∃ filled, List.Forall₂ (fun p bytes => (fillIn (tableOf pieces) p).result = .ok bytes)
    pieces filled ∧ bytes = filled.flatten

theorem exists_assembled {code : List Instruction} {bytes : List UInt8}
    (h : (assemble set code).result = .ok bytes) : ∃ pieces, Assembled set code bytes pieces := by
  rw [assemble_eq] at h
  obtain ⟨pieces, hplace, h⟩ := Logged.result_bind_eq_ok.1 h
  obtain ⟨filled, hfilled, h⟩ := Logged.result_bind_eq_ok.1 h
  obtain ⟨_, _, h⟩ := Logged.result_bind_eq_ok.1 h
  cases h
  rw [Logged.result_mapM, Result.mapM_eq_ok] at hfilled
  obtain ⟨hplaced, hcode, hnodup, _⟩ := placeFrom_eq_ok hplace
  exact ⟨pieces, hplace, hplaced, hcode, hnodup, filled, hfilled, rfl⟩

namespace Assembled

variable {code : List Instruction} {bytes : List UInt8} {pieces : List Piece}

theorem addresses_eq (h : Assembled set code bytes pieces) :
    pieces.map Piece.address = addresses code := by
  rw [addresses, ← h.instructions, List.map_map]
  rfl

theorem length_eq (h : Assembled set code bytes pieces) :
    bytes.length = (pieces.map Piece.length).sum := by
  obtain ⟨filled, hfilled, rfl⟩ := h.filled
  rw [List.length_flatten]
  have hencode := h.placed.encode
  generalize tableOf pieces = found at hfilled
  clear h
  induction hfilled with
  | nil => rfl
  | cons hfirst _ ih =>
    rw [List.map_cons, List.map_cons, List.sum_cons, List.sum_cons,
      length_fillIn (hencode _ List.mem_cons_self) hfirst,
      ih fun p hp => hencode p (List.mem_cons_of_mem _ hp)]

/-- A piece stands within the code, at the offset that the layout gives. -/
theorem offset_of_mem (h : Assembled set code bytes pieces) {p : Piece} (hp : p ∈ pieces) :
    offset? (tableOf pieces) p.address = some p.offset ∧ p.offset < bytes.length := by
  have hbound := (h.placed.bounds p hp).2
  have hpos := List.length_pos_iff.2 (encodeInstruction_ne_nil (h.placed.encode p hp))
  have hfinish : p.finish = p.offset + p.bytes.length := rfl
  rw [← h.length_eq] at hbound
  refine ⟨offset?_tableOf (h.addresses_eq ▸ h.nodup) hp, by omega⟩

/-- The layout gives an offset for every address that the code names. -/
theorem exists_offset (h : Assembled set code bytes pieces) {a : Address}
    (ha : a ∈ addresses code ∨ ∃ i ∈ code, i.target? = some a) :
    ∃ n, offset? (tableOf pieces) a = some n ∧ n < bytes.length := by
  have hpiece : ∃ p ∈ pieces, p.address = a := by
    rcases ha with ha | ⟨i, hi, ht⟩
    · rw [← h.addresses_eq] at ha
      exact List.mem_map.1 ha
    · obtain ⟨filled, hfilled, _⟩ := h.filled
      rw [← h.instructions] at hi
      obtain ⟨p, hp, rfl⟩ := List.mem_map.1 hi
      obtain ⟨bytes, _, hbytes⟩ := exists_of_forall₂ hfilled hp
      rcases fillIn_eq_ok hbytes with ⟨hnone, _⟩ | ⟨t, target, ht', hfound, _⟩
      · rw [ht] at hnone
        cases hnone
      · rw [ht] at ht'
        cases ht'
        exact exists_of_offset?_tableOf hfound
  obtain ⟨p, hp, rfl⟩ := hpiece
  exact ⟨p.offset, h.offset_of_mem hp⟩

/-- **Assembled code is decoded** to the instructions it was made from, with the addresses of the
layout. -/
theorem decode_eq (h : Assembled set code bytes pieces) (hw : ∀ i ∈ code, i.WellFormed set) :
    (decode set bytes).result = .ok (code.map (Instruction.rename (relocation (tableOf pieces)))) := by
  obtain ⟨filled, hfilled, hbytes⟩ := h.filled
  have hdecode : (decodeFrom set bytes.length ⟨0, filled.flatten⟩).result =
      .ok (pieces.map fun p => p.instruction.rename (relocation (tableOf pieces))) := by
    refine decodeFrom_pieces h.placed hfilled ?_ ?_ ?_
    · exact fun p hp => hw _ (h.instructions ▸ List.mem_map_of_mem hp)
    · intro p hp
      rw [relocation, (h.offset_of_mem hp).1, Option.getD_some]
    · intro t n hfound
      obtain ⟨p, hp, rfl⟩ := exists_of_offset?_tableOf hfound
      obtain ⟨hoffset, hlt⟩ := h.offset_of_mem hp
      rw [relocation, hoffset, Option.getD_some]
      rw [hoffset] at hfound
      cases hfound
      exact ⟨Nat.le_of_lt hlt, rfl⟩
  rw [← hbytes] at hdecode
  refine Logged.result_bind_eq_ok.2 ⟨_, hdecode, ?_⟩
  rw [← h.instructions, List.map_map]
  rfl

/-- The address in decoded code is the offset, as long as that is no larger than an address. -/
theorem toNat_relocation (h : Assembled set code bytes pieces) (hlen : bytes.length ≤ 2 ^ 32)
    {a : Address} (ha : a ∈ addresses code ∨ ∃ i ∈ code, i.target? = some a) :
    offset? (tableOf pieces) a = some (relocation (tableOf pieces) a).toNat := by
  obtain ⟨n, hn, hlt⟩ := h.exists_offset ha
  rw [relocation, hn, Option.getD_some, UInt32.toNat_ofNat', Nat.mod_eq_of_lt (by omega)]

/-- Different instructions have different addresses in decoded code. -/
theorem relocation_injective (h : Assembled set code bytes pieces) (hlen : bytes.length ≤ 2 ^ 32) :
    ∀ a ∈ addresses code, ∀ b ∈ addresses code,
      relocation (tableOf pieces) a = relocation (tableOf pieces) b → a = b := by
  intro a ha b hb he
  have hoffset := h.toNat_relocation hlen (.inl ha)
  rw [he, ← h.toNat_relocation hlen (.inl hb)] at hoffset
  rw [← h.addresses_eq] at ha hb
  obtain ⟨p, hp, rfl⟩ := List.mem_map.1 ha
  obtain ⟨q, hq, rfl⟩ := List.mem_map.1 hb
  rw [(h.offset_of_mem hp).1, (h.offset_of_mem hq).1, Option.some.injEq] at hoffset
  have hdistinct : (pieces.map Piece.offset).Nodup :=
    List.pairwise_map.2 (h.placed.pairwise.imp Nat.ne_of_lt)
  rw [List.inj_on_of_nodup_map hdistinct hp hq hoffset]

end Assembled

/-- **Decoding undoes assembling.** Code that is assembled and decoded again is the same code, with
every address replaced by the offset that the layout gives for it. -/
theorem decode_of_assemble (set : CommandSet) (code : List Instruction) (bytes : List UInt8)
    (hw : ∀ i ∈ code, i.WellFormed set) (h : (assemble set code).result = .ok bytes)
    (hlen : bytes.length < 2 ^ 32) :
    ∃ table, (layout set code).result = .ok table ∧
      (decode set bytes).result = .ok (code.map (Instruction.rename (relocation table))) ∧
      ∀ a, (a ∈ addresses code ∨ ∃ i ∈ code, i.target? = some a) →
        offset? table a = some (relocation table a).toNat := by
  obtain ⟨pieces, hpieces⟩ := exists_assembled h
  exact ⟨tableOf pieces, layout_eq_ok.2 ⟨pieces, hpieces.place, rfl⟩, hpieces.decode_eq hw,
    fun a ha => hpieces.toNat_relocation (Nat.le_of_lt hlen) ha⟩

/-- A loop whose condition has a negated test, a group and a test that counts its arguments. -/
def sampleLoop : List Instruction :=
  [.condition 7 [.test ⟨7, [5], true⟩, .anyOf [⟨9, [2], false⟩, ⟨14, [300, 9999], false⟩]] (some 4),
    .command 9 ⟨12, [5]⟩, .goto 2 7, .command 4 ⟨0, []⟩]

/-- The bytes of `sampleLoop`. -/
def sampleBytes : List UInt8 :=
  [0xFF, 0xFD, 7, 5, 0xFC, 9, 2, 14, 2, 44, 1, 15, 39, 0xFC, 0xFF, 5, 0, 12, 5, 0xFE, 234, 255, 0]

theorem decode_of_assemble_sampleLoop :
    (∀ i ∈ sampleLoop, i.WellFormed {}) ∧ (assemble {} sampleLoop).result = .ok sampleBytes ∧
      sampleBytes.length < 2 ^ 32 ∧ ∃ table, (layout {} sampleLoop).result = .ok table ∧
        (decode {} sampleBytes).result =
          .ok (sampleLoop.map (Instruction.rename (relocation table))) ∧
        ∀ a, (a ∈ addresses sampleLoop ∨ ∃ i ∈ sampleLoop, i.target? = some a) →
          offset? table a = some (relocation table a).toNat := by
  have hw : ∀ i ∈ sampleLoop, i.WellFormed {} := by decide +kernel
  have h : (assemble {} sampleLoop).result = .ok sampleBytes := by cbv
  have hlen : sampleBytes.length < 2 ^ 32 := by decide
  exact ⟨hw, h, hlen, decode_of_assemble {} sampleLoop sampleBytes hw h hlen⟩

end Bytecode
end AdventureLogic
