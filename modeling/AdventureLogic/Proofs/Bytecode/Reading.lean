import AdventureLogic.Bytecode.Decode
import AdventureLogic.Bytecode.Encode
import AdventureLogic.Proofs.Result

/-!
# The steps of reading

A reader takes some bytes if it gives a value for them, wherever they stand and
whatever follows. The reader of clauses goes from marker to marker: at each it
closes the condition, turns a negation round, opens or closes a group, or reads
a test.

What can be read at all is well formed: the opcode of a test is none of the
markers that structure clauses, a command or a test has as many arguments as its
opcode takes, and a group of alternatives is not empty.

Key definitions: `Test.WellFormed`, `Clause.WellFormed`, `Instruction.WellFormed`,
`Bytecode.Reads`. Key theorems: `Bytecode.reads_words`, `Bytecode.readClauses_opcode`.
-/

namespace AdventureLogic

/-- The markers that stand between tests. The goto marker is none of them. -/
def Opcode.clauseMarkers : List Opcode := [conditionMarker, orMarker, notMarker]

/-- The test can be read: its opcode is no marker of clauses and takes the arguments it has. -/
structure Test.WellFormed (set : CommandSet) (t : Test) : Prop where
  marker : t.opcode ∉ Opcode.clauseMarkers
  arity : set.testArity? t.opcode = some .counted ∨
    set.testArity? t.opcode = some (.fixed t.args.length)

instance (set : CommandSet) (t : Test) : Decidable (t.WellFormed set) :=
  decidable_of_iff (t.opcode ∉ Opcode.clauseMarkers ∧ (set.testArity? t.opcode = some .counted ∨
    set.testArity? t.opcode = some (.fixed t.args.length)))
    ⟨fun h => ⟨h.1, h.2⟩, fun h => ⟨h.marker, h.arity⟩⟩

/-- The tests of the clause can be read, and a group has one. -/
def Clause.WellFormed (set : CommandSet) : Clause → Prop
  | .test t => t.WellFormed set
  | .anyOf ts => ts ≠ [] ∧ ∀ t ∈ ts, t.WellFormed set

instance (set : CommandSet) : (clause : Clause) → Decidable (clause.WellFormed set)
  | .test t => inferInstanceAs (Decidable (t.WellFormed set))
  | .anyOf ts => inferInstanceAs (Decidable (ts ≠ [] ∧ ∀ t ∈ ts, t.WellFormed set))

/-- The instruction can be read: a command has as many arguments as its opcode takes. -/
def Instruction.WellFormed (set : CommandSet) : Instruction → Prop
  | .command _ c => Opcode.actionArity? c.opcode = some c.args.length
  | .condition _ clauses _ => ∀ clause ∈ clauses, clause.WellFormed set
  | .goto _ _ => True

instance (set : CommandSet) : (i : Instruction) → Decidable (i.WellFormed set)
  | .command _ c => inferInstanceAs (Decidable (Opcode.actionArity? c.opcode = some c.args.length))
  | .condition _ clauses _ =>
    inferInstanceAs (Decidable (∀ clause ∈ clauses, clause.WellFormed set))
  | .goto _ _ => inferInstanceAs (Decidable True)

namespace Bytecode

namespace Word

theorem ofBytes_bytes (w : UInt16) :
    ofBytes (UInt8.ofNat (w.toNat % 256)) (UInt8.ofNat (w.toNat / 256)) = w := by
  have hw := w.toNat_lt
  apply UInt16.toNat_inj.1
  simp only [ofBytes, UInt16.toNat_ofNat', UInt8.toNat_ofNat']
  omega

/-- A distance that fits is read as it was written. -/
theorem signed_ofSigned {n : Int} (h : Fits n) : signed (ofSigned n) = n := by
  obtain ⟨hlo, hhi⟩ := h
  have hnat : (ofSigned n).toNat = (n % 65536).toNat := by
    rw [ofSigned, UInt16.toNat_ofNat']
    omega
  unfold signed
  rw [hnat]
  split <;> omega

end Word

/-- A reader takes these bytes, wherever they stand and whatever follows, and gives a value. -/
def Reads {α : Type} (read : Cursor → Except Error (α × Cursor)) (bytes : List UInt8) (a : α) :
    Prop :=
  ∀ offset rest, read ⟨offset, bytes ++ rest⟩ = .ok (a, ⟨offset + bytes.length, rest⟩)

theorem reads_byte (b : UInt8) : Reads Cursor.byte [b] b := fun _ _ => rfl

theorem reads_bytes : ∀ bs : List UInt8, Reads (Cursor.bytes bs.length) bs bs
  | [] => fun _ _ => rfl
  | b :: bs => fun offset rest => by
    refine Result.bind_eq_ok.2 ⟨_, reads_byte b offset (bs ++ rest), ?_⟩
    refine Result.bind_eq_ok.2 ⟨_, reads_bytes bs (offset + 1) rest, ?_⟩
    rw [List.length_cons, Nat.add_assoc, Nat.add_comm 1]
    rfl

theorem reads_word (w : UInt16) : Reads Cursor.word (Word.bytes w) w := fun offset rest => by
  show Except.ok (Word.ofBytes _ _, _) = _
  rw [Word.ofBytes_bytes]
  rfl

theorem reads_words : ∀ ws : List UInt16,
    Reads (Cursor.words ws.length) (ws.flatMap Word.bytes) ws
  | [] => fun _ _ => rfl
  | w :: ws => fun offset rest => by
    rw [List.flatMap_cons, List.append_assoc, List.length_append, ← Nat.add_assoc]
    refine Result.bind_eq_ok.2 ⟨_, reads_word w offset _, ?_⟩
    refine Result.bind_eq_ok.2 ⟨_, reads_words ws _ rest, ?_⟩
    rfl

variable {set : CommandSet}

theorem readClauses_end (offset : Nat) (rest : List UInt8) :
    readClauses set none false ⟨offset, Opcode.conditionMarker :: rest⟩ =
      .ok ([], ⟨offset + 1, rest⟩) := by
  rw [readClauses]
  rfl

theorem readClauses_not (group : Option OpenGroup) (negated : Bool) (offset : Nat)
    (rest : List UInt8) :
    readClauses set group negated ⟨offset, Opcode.notMarker :: rest⟩ =
      readClauses set group (!negated) ⟨offset + 1, rest⟩ := by
  rw [readClauses]
  rfl

theorem readClauses_open (offset : Nat) (rest : List UInt8) :
    readClauses set none false ⟨offset, Opcode.orMarker :: rest⟩ =
      readClauses set (some ⟨offset, []⟩) false ⟨offset + 1, rest⟩ := by
  rw [readClauses]
  rfl

theorem readClauses_close {g : OpenGroup} (hg : g.tests ≠ []) (offset : Nat) (rest : List UInt8) :
    readClauses set (some g) false ⟨offset, Opcode.orMarker :: rest⟩ =
      (readClauses set none false ⟨offset + 1, rest⟩).map fun r =>
        (.anyOf g.tests.reverse :: r.1, r.2) := by
  rw [readClauses]
  show (if g.tests.isEmpty then _ else _) = _
  rw [if_neg (by simpa using hg)]

/-- The opcode of a test is followed by its arguments. -/
theorem readClauses_opcode {t : Test} {args : List UInt8} (hop : t.opcode ∉ Opcode.clauseMarkers)
    (hread : ∀ opened, Reads (readTest set t.opcode opened) args ⟨t.opcode, t.args, false⟩)
    (group : Option OpenGroup) (negated : Bool) (offset : Nat) (rest : List UInt8) :
    readClauses set group negated ⟨offset, t.opcode :: (args ++ rest)⟩ =
      match group with
      | none => (readClauses set none false ⟨offset + (args.length + 1), rest⟩).map fun r =>
          (.test (t.negate negated) :: r.1, r.2)
      | some g => readClauses set (some (g.add (t.negate negated))) false
          ⟨offset + (args.length + 1), rest⟩ := by
  have hne : ∀ m ∈ Opcode.clauseMarkers, t.opcode ≠ m := fun m hm he => hop (he ▸ hm)
  have ht := hread offset (offset + 1) rest
  rw [Nat.add_assoc, Nat.add_comm 1] at ht
  rw [readClauses]
  show (if t.opcode = Opcode.conditionMarker then _ else if t.opcode = Opcode.orMarker then _
    else if t.opcode = Opcode.notMarker then _ else _) = _
  rw [if_neg (hne _ (by decide)), if_neg (hne _ (by decide)), if_neg (hne _ (by decide))]
  split
  · rename_i e he
    rw [ht] at he
    cases he
  · rename_i t' after he
    rw [ht] at he
    cases he
    rfl

end Bytecode
end AdventureLogic
