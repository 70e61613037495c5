import AdventureLogic.Program.Basic
import AdventureLogic.Proofs.Behaviour.Machine
import Mathlib.Data.List.Nodup

/-!
# Runs of linear code

A run of linear code starts at the first instruction. A command is carried out
and control goes on to the next instruction; a return ends the run, and so does
the end of the code. A goto moves control to its target. A condition tests its
clauses and goes on to the next instruction if they hold, and to its skip target
if they do not; without a skip target the run ends there.

The state of a run is the code from where control stands.

Key definitions: `codeFrom`, `Machine.ofCode`, `Closed`, `Instruction.rename`.
Key theorem: `Machine.equivalent_rename`: only the instructions that addresses
lead to matter, not the addresses.
-/

namespace AdventureLogic

open Program (addresses)

/-- The code from the instruction with an address on; nothing if no instruction has it. -/
def codeFrom (code : List Instruction) (a : Address) : List Instruction :=
  code.dropWhile fun i => i.address != a

/-- The run of linear code. -/
def Machine.ofCode (code : List Instruction) : Machine (List Instruction) where
  start := code
  move
    | [] => .halt
    | .command _ c :: rest => if c.isReturn then .halt else .act c rest
    | .goto _ t :: _ => .pass (codeFrom code t)
    | .condition _ clauses skip :: rest => .ask clauses rest (skip.elim [] (codeFrom code))

/-- What an instruction shows when it runs, if anything. -/
def Instruction.effect? : Instruction → Option Effect
  | .command _ c => some (.command c)
  | .condition _ clauses _ => some (.test clauses)
  | .goto _ _ => none

theorem Instruction.eq_command_of_command? {i : Instruction} {c : Command}
    (h : i.command? = some c) : ∃ a, i = .command a c := by
  cases i with
  | command a c' =>
    cases h
    exact ⟨a, rfl⟩
  | condition => cases h
  | goto => cases h

theorem Instruction.isGoto_of_fallsThrough {i : Instruction} (h : i.fallsThrough = true) :
    i.isGoto = false := by
  cases i with
  | command => rfl
  | condition => rfl
  | goto => cases h

/-- What the instructions of some code can show. -/
def effectsOf (code : List Instruction) : List Effect := code.filterMap Instruction.effect?

/-- Code in which every address stands once and every jump leads to an instruction. -/
structure Closed (code : List Instruction) : Prop where
  nodup : (addresses code).Nodup
  target_mem : ∀ i ∈ code, ∀ t, i.target? = some t → t ∈ addresses code

@[simp] theorem Instruction.effect?_retarget (t : Address) (i : Instruction) :
    (i.retarget t).effect? = i.effect? := by
  cases i <;> rfl

theorem effectsOf_append (code code' : List Instruction) :
    effectsOf (code ++ code') = effectsOf code ++ effectsOf code' :=
  List.filterMap_append

/-- Changing no effect of an instruction changes no effect of the code. -/
theorem effectsOf_map {f : Instruction → Instruction} (h : ∀ i, (f i).effect? = i.effect?)
    (code : List Instruction) : effectsOf (code.map f) = effectsOf code := by
  rw [effectsOf, List.filterMap_map]
  exact List.filterMap_congr fun i _ => h i

theorem codeFrom_append {pre : List Instruction} {a : Address} (h : a ∉ addresses pre)
    (post : List Instruction) : codeFrom (pre ++ post) a = codeFrom post a := by
  refine List.dropWhile_append_of_pos fun i hi => ?_
  have hne : i.address ≠ a := fun e => h (e ▸ List.mem_map_of_mem hi)
  simpa using hne

@[simp] theorem codeFrom_cons_self (i : Instruction) (rest : List Instruction) :
    codeFrom (i :: rest) i.address = i :: rest := by
  simp [codeFrom]

theorem codeFrom_cons_of_ne {i : Instruction} {a : Address} (h : i.address ≠ a)
    (rest : List Instruction) : codeFrom (i :: rest) a = codeFrom rest a := by
  simp [codeFrom, h]

theorem codeFrom_append_cons {pre : List Instruction} {i : Instruction}
    (h : i.address ∉ addresses pre) (post : List Instruction) :
    codeFrom (pre ++ i :: post) i.address = i :: post := by
  rw [codeFrom_append h, codeFrom_cons_self]

/-- Code that has an address splits where the address stands first. -/
theorem exists_split_of_mem {code : List Instruction} {a : Address} (h : a ∈ addresses code) :
    ∃ pre i post, code = pre ++ i :: post ∧ i.address = a ∧ a ∉ addresses pre := by
  induction code with
  | nil => cases h
  | cons j rest ih =>
    by_cases hj : j.address = a
    · exact ⟨[], j, rest, rfl, hj, List.not_mem_nil⟩
    · have hmem : a ∈ addresses rest := by simpa [addresses, Ne.symm hj] using h
      obtain ⟨pre, i, post, rfl, hi, hn⟩ := ih hmem
      refine ⟨j :: pre, i, post, rfl, hi, ?_⟩
      simpa [addresses, Ne.symm hj] using hn

/-- The code from an address on ends with all that follows. -/
theorem codeFrom_append_of_mem {pre : List Instruction} {a : Address} (h : a ∈ addresses pre)
    (post : List Instruction) : codeFrom (pre ++ post) a = codeFrom pre a ++ post := by
  obtain ⟨front, i, back, rfl, rfl, hn⟩ := exists_split_of_mem h
  rw [codeFrom_append_cons hn, List.append_assoc, List.cons_append, codeFrom_append_cons hn]

/-- The code from an address on starts with the instruction that has it. -/
theorem codeFrom_eq_cons {code : List Instruction} {a : Address} (h : a ∈ addresses code) :
    ∃ i rest, codeFrom code a = i :: rest ∧ i.address = a ∧ i :: rest <:+ code := by
  obtain ⟨pre, i, post, rfl, rfl, hn⟩ := exists_split_of_mem h
  exact ⟨i, post, codeFrom_append_cons hn post, rfl, pre, rfl⟩

/-- Where addresses are distinct, the code from an instruction on is found by its address. -/
theorem codeFrom_of_suffix {code rest : List Instruction} {i : Instruction}
    (hn : (addresses code).Nodup) (h : i :: rest <:+ code) :
    codeFrom code i.address = i :: rest := by
  obtain ⟨pre, rfl⟩ := h
  refine codeFrom_append_cons ?_ rest
  rw [addresses, List.map_append, List.map_cons] at hn
  intro hm
  exact (List.nodup_append.1 hn).2.2 _ hm _ List.mem_cons_self rfl

/-- What stands at the start of a rest of some code. -/
theorem drop_eq_cons {code rest : List Instruction} {position : Nat} {i : Instruction}
    (h : code.drop position = i :: rest) :
    code[position]? = some i ∧ code.drop (position + 1) = rest ∧
      position + 1 + rest.length = code.length := by
  have hlen := congrArg List.length h
  rw [List.length_drop, List.length_cons] at hlen
  exact ⟨by rw [← List.head?_drop, h]; rfl, by rw [← List.tail_drop, h]; rfl, by omega⟩

/-- Only one instruction has an address. -/
theorem position_unique {code : List Instruction} (hn : (addresses code).Nodup) {s s' : Nat}
    {t : Address} (hs : code[s]?.map Instruction.address = some t)
    (hs' : code[s']?.map Instruction.address = some t) : s = s' := by
  rw [← List.getElem?_map] at hs hs'
  obtain ⟨hlt, _⟩ := List.getElem?_eq_some_iff.1 hs
  exact (List.getElem?_inj hlt hn).1 (hs.trans hs'.symm)

/-- Where addresses are distinct, the code from an address on is what follows the place where it
stands. -/
theorem codeFrom_eq_drop {code : List Instruction} (hn : (addresses code).Nodup) {p : Nat}
    {a : Address} (hp : code[p]?.map Instruction.address = some a) :
    codeFrom code a = code.drop p := by
  obtain ⟨i, hi, rfl⟩ := Option.map_eq_some_iff.1 hp
  obtain ⟨hlt, rfl⟩ := List.getElem?_eq_some_iff.1 hi
  rw [List.drop_eq_getElem_cons hlt]
  refine codeFrom_of_suffix hn ?_
  rw [← List.drop_eq_getElem_cons hlt]
  exact List.drop_suffix _ _

namespace Machine

variable {R : List Instruction → List Instruction → Prop} {code code' : List Instruction}

/-- The same command on both sides: what follows has to be related if it is no return. -/
theorem related_command (a a' : Address) (c : Command) {rest rest' : List Instruction}
    (h : c.isReturn = false → R rest rest') :
    ((ofCode code).move (.command a c :: rest)).Related R
      ((ofCode code').move (.command a' c :: rest')) := by
  simp only [ofCode]
  cases hr : c.isReturn with
  | true => exact .halt
  | false => exact .act c (h hr)

/-- The same condition on both sides, with skip targets. -/
theorem related_condition (a a' : Address) (clauses : List Clause) {t t' : Address}
    {rest rest' : List Instruction} (yes : R rest rest')
    (no : R (codeFrom code t) (codeFrom code' t')) :
    ((ofCode code).move (.condition a clauses (some t) :: rest)).Related R
      ((ofCode code').move (.condition a' clauses (some t') :: rest')) :=
  .ask clauses yes no

/-- The same condition on both sides, without skip targets. -/
theorem related_condition_none (a a' : Address) (clauses : List Clause)
    {rest rest' : List Instruction} (yes : R rest rest') (no : R [] []) :
    ((ofCode code).move (.condition a clauses none :: rest)).Related R
      ((ofCode code').move (.condition a' clauses none :: rest')) :=
  .ask clauses yes no

/-- The same instruction on both sides: where control can go from it has to be related. -/
theorem related_instruction (i : Instruction) {rest rest' : List Instruction}
    (hrest : i.fallsThrough = true → R rest rest')
    (hjump : ∀ t, i.target? = some t → R (codeFrom code t) (codeFrom code' t)) (hnil : R [] []) :
    ((ofCode code).move (i :: rest)).Related R ((ofCode code').move (i :: rest')) := by
  cases i with
  | command a c =>
    exact related_command a a c fun hc => hrest (by simp [Instruction.fallsThrough, hc])
  | goto a t => exact .pass (hjump t rfl)
  | condition a clauses skip =>
    cases skip with
    | none => exact related_condition_none a a clauses (hrest rfl) hnil
    | some t => exact related_condition a a clauses (hrest rfl) (hjump t rfl)

end Machine

namespace Instruction

/-- The instruction with other addresses in place of its own and of its target. -/
def rename (f : Address → Address) : Instruction → Instruction
  | .command a c => .command (f a) c
  | .condition a clauses skip => .condition (f a) clauses (skip.map f)
  | .goto a t => .goto (f a) (f t)

@[simp] theorem address_rename (f : Address → Address) (i : Instruction) :
    (i.rename f).address = f i.address := by
  cases i <;> rfl

end Instruction

theorem codeFrom_map_rename {f : Address → Address} {code : List Instruction} {a : Address}
    (hf : ∀ b ∈ addresses code, f b = f a → b = a) :
    codeFrom (code.map (Instruction.rename f)) (f a) =
      (codeFrom code a).map (Instruction.rename f) := by
  induction code with
  | nil => rfl
  | cons i rest ih =>
    have ih := ih fun b hb => hf b (List.mem_cons_of_mem _ hb)
    by_cases h : i.address = a
    · subst h
      rw [codeFrom_cons_self, List.map_cons, ← Instruction.address_rename f i, codeFrom_cons_self]
    · have h' : (i.rename f).address ≠ f a := by
        rw [Instruction.address_rename]
        exact fun e => h (hf _ List.mem_cons_self e)
      rw [codeFrom_cons_of_ne h, List.map_cons, codeFrom_cons_of_ne h', ih]

/-- **Renaming addresses changes no run**, as long as different addresses stay different. -/
theorem Machine.equivalent_rename {f : Address → Address} {code : List Instruction}
    (hc : Closed code) (hf : ∀ a ∈ addresses code, ∀ b ∈ addresses code, f a = f b → a = b) :
    (ofCode code).Equivalent (ofCode (code.map (Instruction.rename f))) := by
  have hjump : ∀ t ∈ addresses code, codeFrom (code.map (Instruction.rename f)) (f t) =
      (codeFrom code t).map (Instruction.rename f) :=
    fun t ht => codeFrom_map_rename fun b hb => hf b hb t ht
  refine equivalent_of_matched
    (fun _ s s' => s <:+ code ∧ s' = s.map (Instruction.rename f)) (k := 0)
    ⟨List.suffix_refl _, rfl⟩ ?_
  rintro k s _ ⟨hs, rfl⟩
  refine .both ?_
  cases s with
  | nil => exact .halt
  | cons i rest =>
    have hrest : rest <:+ code := (List.suffix_cons i rest).trans hs
    have hmem : i ∈ code := hs.subset List.mem_cons_self
    have hdest : ∀ t, i.target? = some t → ∃ _ : Nat, codeFrom code t <:+ code ∧
        codeFrom (code.map (Instruction.rename f)) (f t) =
          (codeFrom code t).map (Instruction.rename f) :=
      fun t ht => ⟨0, List.dropWhile_suffix _, hjump t (hc.target_mem i hmem t ht)⟩
    cases i with
    | command a c => exact related_command a (f a) c fun _ => ⟨0, hrest, rfl⟩
    | goto a t => exact .pass (hdest t rfl)
    | condition a clauses skip =>
      cases skip with
      | none => exact related_condition_none a (f a) clauses ⟨0, hrest, rfl⟩ ⟨0, List.nil_suffix, rfl⟩
      | some t => exact related_condition a (f a) clauses ⟨0, hrest, rfl⟩ (hdest t rfl)

end AdventureLogic
