import AdventureLogic.Proofs.Bytecode.Reading

/-!
# The grammar of code

What the bytes of a code may look like, said without a reader. A test may have
any number of negations before it, of which an odd number negates. An even
number of them may also stand before a marker that opens or closes a group or
closes the condition; they cancel. So instructions have several spellings, and
the one that is written has the fewest negations.

    arguments    bytes | count, words
    test         FD*, opcode, arguments
    clause       test | (FD FD)*, FC, tests, (FD FD)*, FC
    clauses      clause*, (FD FD)*, FF
    instruction  opcode, bytes | FE, word | FF, clauses, word

An opcode that is reserved is none of a test. A word says how far it is from the
end of its instruction to where the jump leads.

Whatever is spelled is read, and whatever is written is a spelling.

Key definitions: `Bytecode.SpellsTest`, `Bytecode.SpellsClauses`,
`Bytecode.SpellsInstruction`, `Bytecode.Spells`. Key theorems:
`Bytecode.reads_clauses`, `Bytecode.spellsClauses_of_encode`.
-/

namespace AdventureLogic
namespace Bytecode

/-- A run of negations. -/
def nots (n : Nat) : List UInt8 := List.replicate n Opcode.notMarker

theorem nots_succ (n : Nat) : nots (n + 1) = Opcode.notMarker :: nots n := rfl

@[simp] theorem length_nots (n : Nat) : (nots n).length = n := List.length_replicate

section Grammar

variable (set : CommandSet) (reserved : List Opcode)

/-- The arguments of a test: as many bytes as its opcode takes, or a byte that counts words. -/
inductive SpellsArgs (op : Opcode) : List UInt16 → List UInt8 → Prop where
  | fixed {bs : List UInt8} (h : set.testArity? op = some (.fixed bs.length)) :
    SpellsArgs op (bs.map UInt8.toUInt16) bs
  | counted {count : UInt8} {ws : List UInt16} (h : set.testArity? op = some .counted)
    (hcount : count.toNat = ws.length) : SpellsArgs op ws (count :: ws.flatMap Word.bytes)

/-- A test: negations, the opcode and its arguments. -/
inductive SpellsTest : Test → List UInt8 → Prop where
  | mk {op : Opcode} {args : List UInt16} {bytes : List UInt8} (n : Nat) (hop : op ∉ reserved)
    (hargs : SpellsArgs set op args bytes) :
    SpellsTest ⟨op, args, n % 2 = 1⟩ (nots n ++ op :: bytes)

/-- A clause: a test, or tests between two markers. -/
inductive SpellsClause : Clause → List UInt8 → Prop where
  | test {t : Test} {bytes : List UInt8} (h : SpellsTest set reserved t bytes) :
    SpellsClause (.test t) bytes
  | anyOf {ts : List Test} {pieces : List (List UInt8)} (m n : Nat) (hne : ts ≠ [])
    (h : List.Forall₂ (SpellsTest set reserved) ts pieces) :
    SpellsClause (.anyOf ts)
      (nots (2 * m) ++ Opcode.orMarker :: (pieces.flatten ++ (nots (2 * n) ++ [Opcode.orMarker])))

/-- The clauses of a condition, with the marker that closes them. -/
inductive SpellsClauses : List Clause → List UInt8 → Prop where
  | nil (n : Nat) : SpellsClauses [] (nots (2 * n) ++ [Opcode.conditionMarker])
  | cons {clause : Clause} {clauses : List Clause} {bytes rest : List UInt8}
    (h : SpellsClause set reserved clause bytes) (hrest : SpellsClauses clauses rest) :
    SpellsClauses (clause :: clauses) (bytes ++ rest)

/-- A word at the end of an instruction leads from there to a target, inside a code of `size` bytes
or at its end. -/
structure SpellsJump (size stop : Nat) (w : UInt16) (t : Address) : Prop where
  target : (t.toNat : Int) = stop + Word.signed w
  bound : t.toNat ≤ size

/-- An instruction that stands at an offset. -/
inductive SpellsInstruction (size offset : Nat) : Instruction → List UInt8 → Prop where
  | command {a : Address} {op : Opcode} {args : List UInt8} (ha : a.toNat = offset)
    (h : Opcode.actionArity? op = some args.length) :
    SpellsInstruction size offset (.command a ⟨op, args⟩) (op :: args)
  | goto {a t : Address} {w : UInt16} (ha : a.toNat = offset)
    (h : SpellsJump size (offset + 3) w t) :
    SpellsInstruction size offset (.goto a t) (Opcode.gotoMarker :: Word.bytes w)
  | condition {a t : Address} {clauses : List Clause} {bytes : List UInt8} {w : UInt16}
    (ha : a.toNat = offset) (hclauses : SpellsClauses set reserved clauses bytes)
    (h : SpellsJump size (offset + (bytes.length + 3)) w t) :
    SpellsInstruction size offset (.condition a clauses (some t))
      (Opcode.conditionMarker :: (bytes ++ Word.bytes w))

/-- Instructions that stand one after the other from an offset on, and the bytes of each. -/
inductive SpellsFrom (size : Nat) : Nat → List Instruction → List (List UInt8) → Prop where
  | nil {offset : Nat} : SpellsFrom size offset [] []
  | cons {offset : Nat} {i : Instruction} {code : List Instruction} {bytes : List UInt8}
    {pieces : List (List UInt8)} (h : SpellsInstruction set reserved size offset i bytes)
    (hrest : SpellsFrom size (offset + bytes.length) code pieces) :
    SpellsFrom size offset (i :: code) (bytes :: pieces)

/-- The bytes are those of the instructions, one after the other. -/
def Spells (code : List Instruction) (bytes : List UInt8) : Prop :=
  ∃ pieces, SpellsFrom set reserved bytes.length 0 code pieces ∧ bytes = pieces.flatten

end Grammar

variable {set : CommandSet} {reserved : List Opcode}

theorem SpellsTest.not_mem_reserved {t : Test} {bytes : List UInt8}
    (h : SpellsTest set reserved t bytes) : t.opcode ∉ reserved := by
  cases h
  assumption

/-! ## What is spelled is read -/

theorem reads_args {op : Opcode} {args : List UInt16} {bytes : List UInt8}
    (h : SpellsArgs set op args bytes) (opened : Nat) :
    Reads (readTest set op opened) bytes ⟨op, args, false⟩ := by
  intro offset rest
  cases h with
  | fixed h =>
    rw [readTest, h]
    exact Result.bind_eq_ok.2 ⟨_, reads_bytes bytes offset rest, rfl⟩
  | @counted count _ h hcount =>
    rw [readTest, h, List.length_cons, Nat.add_comm _ 1, ← Nat.add_assoc]
    refine Result.bind_eq_ok.2 ⟨_, reads_byte count offset _, ?_⟩
    dsimp only
    rw [hcount]
    exact Result.bind_eq_ok.2 ⟨_, reads_words args _ rest, rfl⟩

/-- A run of negations turns round whether the next test is negated, as often as it is long. -/
theorem readClauses_nots (group : Option OpenGroup) (n : Nat) :
    ∀ (negated : Bool) (offset : Nat) (rest : List UInt8),
      readClauses set group negated ⟨offset, nots n ++ rest⟩ =
        readClauses set group (negated ^^ decide (n % 2 = 1)) ⟨offset + n, rest⟩ := by
  induction n with
  | zero => simp [nots]
  | succ n ih =>
    intro negated offset rest
    have hparity : (!negated ^^ decide (n % 2 = 1)) = (negated ^^ decide ((n + 1) % 2 = 1)) := by
      rcases Nat.mod_two_eq_zero_or_one n with h | h
      · simp [Nat.add_mod, h]
      · simp [Nat.add_mod, h]
    rw [nots_succ, List.cons_append, readClauses_not, ih, hparity, Nat.add_assoc, Nat.add_comm 1]

/-- An even number of negations is read over. -/
theorem readClauses_even (group : Option OpenGroup) (n offset : Nat) (rest : List UInt8) :
    readClauses set group false ⟨offset, nots (2 * n) ++ rest⟩ =
      readClauses set group false ⟨offset + 2 * n, rest⟩ := by
  simp [readClauses_nots]

/-- A spelled test is read, on its own or in a group. -/
theorem readClauses_test (hr : Opcode.clauseMarkers ⊆ reserved) {t : Test} {bytes : List UInt8}
    (h : SpellsTest set reserved t bytes) (group : Option OpenGroup) (offset : Nat)
    (rest : List UInt8) :
    readClauses set group false ⟨offset, bytes ++ rest⟩ =
      match group with
      | none => (readClauses set none false ⟨offset + bytes.length, rest⟩).map fun r =>
          (.test t :: r.1, r.2)
      | some g => readClauses set (some (g.add t)) false ⟨offset + bytes.length, rest⟩ := by
  obtain @⟨op, args, bytes, n, hop, hargs⟩ := h
  have hopcode := readClauses_opcode (t := ⟨op, args, n % 2 = 1⟩) (fun hm => hop (hr hm))
    (reads_args hargs) group (n % 2 = 1) (offset + n) rest
  have hlen : offset + (nots n ++ op :: bytes).length = offset + n + (bytes.length + 1) := by
    rw [List.length_append, length_nots, List.length_cons, Nat.add_assoc]
  rw [List.append_assoc, List.cons_append, readClauses_nots, Bool.false_xor, hlen]
  exact hopcode

/-- The tests of a group are read, after those that stand before them. -/
theorem readClauses_tests (hr : Opcode.clauseMarkers ⊆ reserved) {ts : List Test}
    {pieces : List (List UInt8)} (h : List.Forall₂ (SpellsTest set reserved) ts pieces)
    (g : OpenGroup) (offset : Nat) (rest : List UInt8) :
    readClauses set (some g) false ⟨offset, pieces.flatten ++ rest⟩ =
      readClauses set (some ⟨g.opened, ts.reverse ++ g.tests⟩) false
        ⟨offset + pieces.flatten.length, rest⟩ := by
  induction h generalizing g offset with
  | nil => rfl
  | @cons t bytes ts pieces ht _ ih =>
    rw [List.flatten_cons, List.append_assoc, readClauses_test hr ht]
    dsimp only
    rw [ih, List.length_append, Nat.add_assoc, List.reverse_cons, List.append_assoc]
    rfl

/-- **A spelled clause is read**, before whatever follows. -/
theorem readClauses_clause (hr : Opcode.clauseMarkers ⊆ reserved) {clause : Clause}
    {bytes : List UInt8} (h : SpellsClause set reserved clause bytes) (offset : Nat)
    (rest : List UInt8) :
    readClauses set none false ⟨offset, bytes ++ rest⟩ =
      (readClauses set none false ⟨offset + bytes.length, rest⟩).map fun r =>
        (clause :: r.1, r.2) := by
  cases h with
  | test h => exact readClauses_test hr h none offset rest
  | @anyOf ts pieces m n hne h =>
    simp only [List.append_assoc, List.cons_append, List.nil_append]
    rw [readClauses_even, readClauses_open, readClauses_tests hr h, readClauses_even,
      readClauses_close (by simpa using hne)]
    simp only [List.append_nil, List.reverse_reverse, List.length_append, List.length_cons,
      length_nots, List.length_nil]
    congr 3
    omega

/-- **The clauses of a condition are read**, up to the marker that closes them. -/
theorem reads_clauses (hr : Opcode.clauseMarkers ⊆ reserved) {clauses : List Clause}
    {bytes : List UInt8} (h : SpellsClauses set reserved clauses bytes) :
    Reads (readClauses set none false) bytes clauses := by
  induction h with
  | nil n =>
    intro offset rest
    rw [List.append_assoc, readClauses_even]
    simp only [List.singleton_append, List.length_append, length_nots, List.length_singleton]
    exact readClauses_end (offset + 2 * n) rest
  | @cons clause clauses bytes rest hc _ ih =>
    intro offset more
    rw [List.append_assoc, readClauses_clause hr hc, ih (offset + bytes.length) more,
      List.length_append, ← Nat.add_assoc]
    rfl

/-! ## What is written is a spelling -/

theorem spellsArgs_of_fixed {op : Opcode} {args : List UInt16}
    (harity : set.testArity? op = some (.fixed args.length))
    (hbytes : (args.find? fun v => 255 < v.toNat) = none) :
    SpellsArgs set op args (args.map UInt16.toUInt8) := by
  have hargs : (args.map UInt16.toUInt8).map UInt8.toUInt16 = args := by
    rw [List.map_map]
    refine (List.map_congr_left fun v hv => ?_).trans (List.map_id args)
    have hsmall : v.toNat ≤ 255 := by simpa using List.find?_eq_none.1 hbytes v hv
    apply UInt16.toNat_inj.1
    simp only [Function.comp_apply, id_eq, UInt8.toNat_toUInt16, UInt16.toNat_toUInt8]
    omega
  have hspells : SpellsArgs set op ((args.map UInt16.toUInt8).map UInt8.toUInt16)
      (args.map UInt16.toUInt8) := .fixed (by rw [List.length_map, harity])
  rwa [hargs] at hspells

theorem spellsTest_of_encode {t : Test} {bytes : List UInt8} (hw : t.WellFormed set)
    (h : encodeTest set t = .ok bytes) : SpellsTest set Opcode.clauseMarkers t bytes := by
  have hspells : ∀ {args : List UInt8}, SpellsArgs set t.opcode t.args args →
      SpellsTest set Opcode.clauseMarkers t
        ((if t.negated then [Opcode.notMarker] else []) ++ t.opcode :: args) := by
    intro args hargs
    obtain ⟨op, targs, negated⟩ := t
    cases negated with
    | false => exact .mk 0 hw.marker hargs
    | true => exact .mk 1 hw.marker hargs
  unfold encodeTest at h
  dsimp only at h
  rw [List.append_assoc, List.append_assoc] at h
  rcases hw.arity with harity | harity
  · rw [harity] at h
    dsimp only at h
    split at h
    · rename_i hlen
      refine Except.ok.inj h ▸ hspells (.counted harity ?_)
      rw [UInt8.toNat_ofNat']
      omega
    · cases h
  · rw [harity] at h
    dsimp only at h
    split at h
    · cases h
    · rename_i hbytes
      exact Except.ok.inj h ▸ hspells (spellsArgs_of_fixed harity hbytes)

theorem spellsTests_of_encode {ts : List Test} {written : List (List UInt8)}
    (h : List.Forall₂ (fun t bytes => encodeTest set t = .ok bytes) ts written)
    (hw : ∀ t ∈ ts, t.WellFormed set) :
    List.Forall₂ (SpellsTest set Opcode.clauseMarkers) ts written := by
  induction h with
  | nil => exact .nil
  | cons ht _ ih =>
    exact .cons (spellsTest_of_encode (hw _ List.mem_cons_self) ht)
      (ih fun t ht => hw t (List.mem_cons_of_mem _ ht))

theorem spellsClause_of_encode {clause : Clause} {bytes : List UInt8} (hw : clause.WellFormed set)
    (h : encodeClause set clause = .ok bytes) : SpellsClause set Opcode.clauseMarkers clause bytes := by
  cases clause with
  | test t => exact .test (spellsTest_of_encode hw h)
  | anyOf ts =>
    obtain ⟨hne, hw⟩ := hw
    obtain ⟨written, hwritten, h⟩ := Result.bind_eq_ok.1 h
    cases h
    exact .anyOf 0 0 hne (spellsTests_of_encode (Result.mapM_eq_ok.1 hwritten) hw)

/-- **What is written for the clauses of a condition is a spelling of them.** -/
theorem spellsClauses_of_encode {clauses : List Clause} {written : List (List UInt8)}
    (h : List.Forall₂ (fun clause bytes => encodeClause set clause = .ok bytes) clauses written)
    (hw : ∀ clause ∈ clauses, clause.WellFormed set) :
    SpellsClauses set Opcode.clauseMarkers clauses
      (written.flatten ++ [Opcode.conditionMarker]) := by
  induction h with
  | nil => exact .nil 0
  | cons hc _ ih =>
    rw [List.flatten_cons, List.append_assoc]
    exact .cons (spellsClause_of_encode (hw _ List.mem_cons_self) hc)
      (ih fun c hc => hw c (List.mem_cons_of_mem _ hc))

end Bytecode
end AdventureLogic
