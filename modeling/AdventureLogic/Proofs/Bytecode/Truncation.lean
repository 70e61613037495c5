import AdventureLogic.Proofs.Bytecode.Resuming

/-!
# Code that ends too early

The decoder says that code ends too early at the end of the code only, and only
if nothing else is wrong with it: some bytes can be put behind it with which it
is fine. They complete the instruction in which the code ends, and returns
follow until the code is long enough for the jumps in it.

Code that is fine if it goes on can have no other fault, but for a jump that
leads behind the end.

Key theorems: `Bytecode.exists_decodeFrom_extend`,
`Bytecode.error_of_decodeFrom_extend`, `Bytecode.decode_truncated`.
-/

namespace AdventureLogic
namespace Bytecode

variable {set : CommandSet}

/-- **Code that is fine if it goes on can only be too short,** or a jump leads behind its end. -/
theorem error_of_decodeFrom_extend {size size' : Nat} (hsize : size ≤ size') {more : List UInt8}
    {c : Cursor} {e : Error} {code : List Instruction}
    (h : (decodeFrom set size c).result = .error e)
    (hlong : (decodeFrom set size' (c.extend more)).result = .ok code) :
    e = .unexpectedEnd c.stop ∨ ∃ source target, e = .jumpOutsideCode source target ∧
      (size : Int) < target := by
  fun_induction decodeFrom set size c generalizing code with
  | case1 => cases h
  | case2 c hne e' hread =>
    cases h
    rw [result_decodeFrom (extend_ne_nil (by simpa using hne) more)] at hlong
    have hcontinues := continues_readInstruction set hsize more c
    rw [hread] at hcontinues
    obtain ⟨_, hok, _⟩ := Result.bind_eq_ok.1 hlong
    rw [hok] at hcontinues
    cases hcontinues with
    | ended => exact .inl rfl
    | beyond hbeyond => exact .inr ⟨_, _, rfl, hbeyond⟩
  | case3 c hne i next hread ih =>
    have hcontinues := continues_readInstruction set hsize more c
    rw [hread] at hcontinues
    obtain ⟨hstop, hnext⟩ := hcontinues.eq_ok
    rw [result_decodeFrom (extend_ne_nil (by simpa using hne) more), hnext] at hlong
    obtain ⟨rest, hrest, _⟩ := Result.map_eq_ok.1 hlong
    obtain h | ⟨_, _, h⟩ := Logged.result_bind_eq_error.1 h
    · cases h
    · rw [← hstop]
      exact ih (Result.map_eq_error.1 h) hrest

/-- Returns can stand at the end of any code. -/
theorem decodeFrom_returns (set : CommandSet) (size : Nat) : ∀ n offset, ∃ code,
    (decodeFrom set size ⟨offset, List.replicate n Opcode.ret⟩).result = .ok code
  | 0, offset => ⟨[], result_decodeFrom_nil size offset⟩
  | n + 1, offset => by
    obtain ⟨code, hcode⟩ := decodeFrom_returns set size n (offset + 1)
    have hread := @readInstruction_command set .ret (by decide +kernel) size offset
      (List.replicate n Opcode.ret)
    exact ⟨_, decodeFrom_cons (List.cons_ne_nil _ _) hread hcode⟩

/-- **Code that ends too early can be completed.** The instruction in which it ends is completed, and
returns are put behind it, until the code is long enough for the jumps. -/
theorem exists_decodeFrom_extend {size p : Nat} {c : Cursor}
    (h : (decodeFrom set size c).result = .error (.unexpectedEnd p)) :
    p = c.stop ∧ ∃ more need, ∀ size', need ≤ size' → ∀ n, ∃ code,
      (decodeFrom set size' (c.extend (more ++ List.replicate n Opcode.ret))).result = .ok code := by
  fun_induction decodeFrom set size c with
  | case1 => cases h
  | case2 c hne e hread =>
    cases h
    have hne : c.rest ≠ [] := by simpa using hne
    have hcontinues := continues_readInstruction set (Nat.le_refl size) [] c
    rw [hread] at hcontinues
    obtain ⟨more, i, offset, need, hcomplete⟩ := completable_readInstruction hne hread
    refine ⟨hcontinues.offset_eq, more, need, fun size' hsize n => ?_⟩
    obtain ⟨code, hcode⟩ := decodeFrom_returns set size' n offset
    refine ⟨i :: code, ?_⟩
    rw [result_decodeFrom (extend_ne_nil hne _), hcomplete size' hsize]
    exact Result.map_eq_ok.2 ⟨code, hcode, rfl⟩
  | case3 c hne i next hread ih =>
    have hne : c.rest ≠ [] := by simpa using hne
    obtain h | ⟨_, _, h⟩ := Logged.result_bind_eq_error.1 h
    · cases h
    obtain ⟨hp, more, need, hcomplete⟩ := ih (Result.map_eq_error.1 h)
    have hcontinues := fun {size'} (hsize : size ≤ size') more =>
      continues_readInstruction set hsize more c
    rw [hread] at hcontinues
    refine ⟨hp.trans (hcontinues (Nat.le_refl size) []).eq_ok.1, more, max size need,
      fun size' hsize n => ?_⟩
    obtain ⟨code, hcode⟩ := hcomplete size' (by omega) n
    refine ⟨i :: code, ?_⟩
    rw [result_decodeFrom (extend_ne_nil hne _),
      (hcontinues (show size ≤ size' by omega) _).eq_ok.2]
    exact Result.map_eq_ok.2 ⟨code, hcode, rfl⟩

/-- **The fault of truncation means truncation.** It names the end of the code, and the code can be
completed. If code can be completed, its fault is that one, or a jump leads behind its end. -/
theorem decode_truncated (set : CommandSet) (code : List UInt8) :
    (∀ p, (decode set code).result = .error (.unexpectedEnd p) →
      p = code.length ∧ ∃ more program, (decode set (code ++ more)).result = .ok program) ∧
    ∀ e more program, (decode set code).result = .error e →
      (decode set (code ++ more)).result = .ok program →
        e = .unexpectedEnd code.length ∨
          ∃ source target, e = .jumpOutsideCode source target ∧ (code.length : Int) < target := by
  have hstop : (Cursor.start code).stop = code.length := Nat.zero_add _
  have hstart : ∀ more, Cursor.start (code ++ more) = (Cursor.start code).extend more :=
    fun _ => rfl
  simp only [result_decode, hstart, List.length_append]
  refine ⟨fun p h => ?_, fun e more program h hlong => ?_⟩
  · obtain ⟨hp, more, need, hcomplete⟩ := exists_decodeFrom_extend h
    refine ⟨hp.trans hstop, more ++ List.replicate need Opcode.ret, ?_⟩
    exact hcomplete _ (by rw [List.length_append, List.length_replicate]; omega) need
  · have herror := error_of_decodeFrom_extend (Nat.le_add_right _ _) h hlong
    rwa [hstop] at herror

/-- Code that ends in the second word of a counted test, which is negated and stands in a group. -/
def cutBytes : List UInt8 := [12, 5, 0xFF, 0xFC, 9, 2, 0xFD, 14, 2, 44, 1, 7]

/-- Code that ends before the target of its jump. -/
def shortBytes : List UInt8 := [0xFE, 2, 0, 12]

theorem decode_truncated_cutBytes :
    ((decode {} cutBytes).result = .error (.unexpectedEnd 12) ∧
      ∃ more program, (decode {} (cutBytes ++ more)).result = .ok program) ∧
    (decode {} shortBytes).result = .error (.jumpOutsideCode 0 5) ∧
      (decode {} (shortBytes ++ [5])).result = .ok [.goto 0 5, .command 3 ⟨12, [5]⟩] ∧
      (Error.jumpOutsideCode 0 5 = .unexpectedEnd shortBytes.length ∨
        ∃ source target, Error.jumpOutsideCode 0 5 = .jumpOutsideCode source target ∧
          (shortBytes.length : Int) < target) := by
  have hcut : (decode {} cutBytes).result = .error (.unexpectedEnd 12) := by decide +kernel
  have hshort : (decode {} shortBytes).result = .error (.jumpOutsideCode 0 5) := by decide +kernel
  have hlong : (decode {} (shortBytes ++ [5])).result =
      .ok [.goto 0 5, .command 3 ⟨12, [5]⟩] := by decide +kernel
  exact ⟨⟨hcut, ((decode_truncated {} cutBytes).1 12 hcut).2⟩, hshort, hlong,
    (decode_truncated {} shortBytes).2 _ _ _ hshort hlong⟩

end Bytecode
end AdventureLogic
