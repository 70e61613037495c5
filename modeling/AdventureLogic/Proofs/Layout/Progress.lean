import AdventureLogic.Proofs.Layout.Addresses
import AdventureLogic.Proofs.Layout.Complete

/-!
# Laying out fragments comes to an end

A step puts out the code of one block and at most one instruction with a fresh
address, so the addresses of the output stay distinct, and all its jumps lead to
where scheduled blocks land (`Layout.Stocked`). A step fails only if no fresh
address is left, or if control that enters a block does not land. It lands
unless it goes round in circles through blocks without code. If it does for some
block, no layout succeeds: every block is laid out in the end, and a block is
laid out only if control lands that enters it.

Key definitions: `Layout.PassesOn`, `Plan.Furnished`, `Layout.Emits`,
`Layout.Stocked`. Key theorems: `Plan.entry_eq_error`, `Plan.stocked_step`,
`Plan.stocked_run`, `Plan.run_eq_error`.
-/

namespace AdventureLogic
namespace Layout

open Program (addresses)

/-- Control passes from a block without code straight on to another. -/
def PassesOn (fragments : Fragments) (n m : BlockId) : Prop :=
  ∃ f, fragments.get? n = some f ∧ f.entrance = .pass m

/-- Blocks that control passes on to one after the other land in fewer and fewer passes. -/
theorem Lands.transGen {fragments : Fragments} {n m : BlockId}
    (h : Relation.TransGen (PassesOn fragments) n m) {k : Nat} {a : Address}
    (hl : Lands fragments k n a) : ∃ j < k, Lands fragments j m a := by
  induction h with
  | single hpass =>
    obtain ⟨f, hf, he⟩ := hpass
    exact hl.of_pass hf he
  | tail _ hpass ih =>
    obtain ⟨f, hf, he⟩ := hpass
    obtain ⟨j, hj, hl⟩ := ih
    obtain ⟨i, hi, hl⟩ := hl.of_pass hf he
    exact ⟨i, Nat.lt_trans hi hj, hl⟩

/-- Control that lands does not go round in circles. -/
theorem Lands.not_circular {fragments : Fragments} {k : Nat} {n : BlockId} {a : Address}
    (hl : Lands fragments k n a) : ¬Relation.TransGen (PassesOn fragments) n n := by
  intro hcircle
  obtain ⟨j, hj, hl'⟩ := hl.transGen hcircle
  have hjk := (hl.unique hl').1
  omega

namespace Plan

/-- The block has a fragment. -/
def Has (plan : Plan) (n : BlockId) : Prop := ∃ f, plan.fragments.get? n = some f

/-- Every block that a fragment leads to has a fragment, a fragment that leads nowhere has code, and
no two instructions have one address. -/
structure Furnished (plan : Plan) : Prop where
  commands : ∀ n f, plan.fragments.get? n = some f → ∀ i ∈ f.code, ∃ a c, i = .command a c
  next : ∀ n f m, plan.fragments.get? n = some f → f.ending = .straight (some m) → plan.Has m
  leave : ∀ n f, plan.fragments.get? n = some f → f.ending = .straight none → f.code ≠ []
  branch : ∀ n f clauses a yes skip merge, plan.fragments.get? n = some f →
    f.ending = .branch clauses a yes skip merge →
      plan.Has yes ∧ plan.Has skip ∧ ∀ m, merge = some m → plan.Has m
  nodup : ∀ n f, plan.fragments.get? n = some f → f.addresses.Nodup
  apart : ∀ n m f f', plan.fragments.get? n = some f → plan.fragments.get? m = some f' → n ≠ m →
    ∀ a ∈ f.addresses, a ∉ f'.addresses

variable {plan : Plan} {s t : State}

/-! ## Where control does not land -/

/-- The blocks that have been passed all lead to the one that is entered. So if it has been passed
before, control goes round in a circle. -/
theorem entryFrom_eq_error (hplan : plan.Furnished) {unseen : Std.TreeSet BlockId} {n : BlockId}
    {e : Error} (hn : plan.Has n)
    (hseen : ∀ m, plan.Has m → m ∉ unseen → Relation.TransGen (PassesOn plan.fragments) m n)
    (h : plan.entryFrom unseen n = .error e) :
    (∃ d, e = .unresolvedExit d) ∧ ∃ m, Relation.TransGen (PassesOn plan.fragments) m m := by
  fun_induction entryFrom plan unseen n with
  | case1 unseen n e' hf =>
    obtain ⟨f, hget⟩ := hn
    rw [plan.fragment_eq_ok_iff.2 hget] at hf
    cases hf
  | case2 => cases h
  | case3 unseen n f hf he =>
    obtain ⟨hcode, hending⟩ := entrance_eq_leave_iff.1 he
    exact absurd hcode (hplan.leave n f (plan.fragment_eq_ok_iff.1 hf) hending)
  | case4 unseen n f hf next he hmem ih =>
    have hget := plan.fragment_eq_ok_iff.1 hf
    have hpass : PassesOn plan.fragments n next := ⟨f, hget, he⟩
    refine ih (hplan.next n f next hget (entrance_eq_pass he).2) (fun m hm hnot => ?_) h
    by_cases heq : n = m
    · exact heq ▸ .single hpass
    · refine (hseen m hm fun hin => hnot ?_).tail hpass
      exact Std.TreeSet.mem_erase.2 ⟨fun hc => heq (Std.LawfulEqCmp.eq_of_compare hc), hin⟩
  | case5 unseen n f hf next he hmem =>
    cases h
    exact ⟨⟨_, rfl⟩, n, hseen n hn hmem⟩

/-- **Control that does not land goes round in a circle.** -/
theorem entry_eq_error (hplan : plan.Furnished) {n : BlockId} {e : Error} (hn : plan.Has n)
    (h : plan.entry n = .error e) :
    (∃ d, e = .unresolvedExit d) ∧ ∃ m, Relation.TransGen (PassesOn plan.fragments) m m := by
  rw [entry_eq_entryFrom] at h
  refine entryFrom_eq_error hplan hn (fun m hm hnot => ?_) h
  obtain ⟨f, hf⟩ := hm
  exact absurd (mem_blocks_of_get? hf) hnot

end Plan

/-! ## One step -/

/-- A jump leads to where a scheduled block lands, and a condition has a skip target. -/
structure Sent (plan : Plan) (s : State) (i : Instruction) : Prop where
  target : ∀ t, i.target? = some t → ∃ k n, Lands plan.fragments k n t ∧ Scheduled s n
  skip : ∀ a clauses, i ≠ .condition a clauses none

/-- A step for a block adds to the output what the block has, and instructions with fresh
addresses. -/
structure Emits (plan : Plan) (s t : State) (n : BlockId) (laid fresh : List Instruction) :
    Prop where
  output : t.output = s.output ++ (laid ++ fresh)
  takes : s.pool.Takes t.pool (addresses fresh)
  length : fresh.length ≤ 1
  placed : laid = [] ∧ t.unplaced = s.unplaced ∨
    ∃ f, plan.fragments.get? n = some f ∧ n ∈ s.unplaced ∧ t.unplaced = s.unplaced.erase n ∧
      addresses laid = f.addresses ∧ ∃ k a, Lands plan.fragments k n a
  sent : ∀ i ∈ laid ++ fresh, Sent plan t i
  work : ∀ u ∈ t.work, u ∈ s.work ∨ plan.Has u.block

/-- What holds of the addresses, jumps and tasks before and after every step. -/
structure Stocked (plan : Plan) (s : State) : Prop where
  has : ∀ u ∈ s.work, plan.Has u.block
  ascending : s.pool.Ascending
  nodup : (addresses s.output).Nodup
  used : ∀ a ∈ addresses s.output, s.pool.isUsed a
  fragments : ∀ n f, plan.fragments.get? n = some f → ∀ a ∈ f.addresses, s.pool.isUsed a
  apart : ∀ n f, plan.fragments.get? n = some f → n ∈ s.unplaced →
    ∀ a ∈ f.addresses, a ∉ addresses s.output
  sent : ∀ i ∈ s.output, Sent plan s i
  landed : ∀ n, plan.Has n → n ∉ s.unplaced → ∃ k a, Lands plan.fragments k n a

theorem Sent.mono {plan : Plan} {s t : State} {task : Task} {rest : List Task} {i : Instruction}
    (hadv : Advances plan s t task rest) (h : Sent plan s i) : Sent plan t i := by
  refine ⟨fun u hu => ?_, h.skip⟩
  obtain ⟨k, n, hl, hn⟩ := h.target u hu
  exact ⟨k, n, hl, hadv.scheduled_mono hn⟩

theorem Sent.command {plan : Plan} {s : State} (a : Address) (c : Command) :
    Sent plan s (.command a c) := by
  refine ⟨fun t ht => ?_, fun a' clauses h => ?_⟩
  · cases ht
  · cases h

theorem Sent.jump {plan : Plan} {s : State} {i : Instruction} {k : Nat} {n : BlockId} {a : Address}
    (ht : i.target? = some a) (hl : Lands plan.fragments k n a) (hn : Scheduled s n) :
    Sent plan s i := by
  refine ⟨fun t ht' => ?_, fun a' clauses h => ?_⟩
  · cases ht.symm.trans ht'
    exact ⟨k, n, hl, hn⟩
  · rw [h] at ht
    cases ht

/-- When no task is left, a jump leads to an instruction. -/
theorem Sent.target_mem {plan : Plan} {s : State} {i : Instruction} (h : Sent plan s i)
    (hs : Invariant plan s) (hw : s.work = []) {a : Address} (ha : i.target? = some a) :
    a ∈ addresses s.output := by
  obtain ⟨k, n, hl, hn⟩ := h.target a ha
  exact hs.mem_addresses_of_lands hw hl (hn.placed hw)

section Emitting

variable {plan : Plan} {s t : State} {task : Task} {rest : List Task}
  {laid fresh : List Instruction}

/-- What a block has was taken before, and it has not been put out. -/
theorem Stocked.of_mem_laid (hs : Stocked plan s)
    (h : Emits plan { s with work := rest } t task.block laid fresh) :
    ∀ a ∈ addresses laid, s.pool.isUsed a ∧ a ∉ addresses s.output := by
  intro a ha
  rcases h.placed with ⟨rfl, _⟩ | ⟨f, hf, hn, _, hlaid, _⟩
  · cases ha
  · rw [hlaid] at ha
    exact ⟨hs.fragments _ f hf a ha, hs.apart _ f hf hn a ha⟩

/-- A block that is still to be laid out was so before, and nothing of it has been put out. -/
theorem Emits.of_unplaced (hplan : plan.Furnished) (h : Emits plan s t task.block laid fresh)
    {n : BlockId} (hn : n ∈ t.unplaced) : n ∈ s.unplaced ∧
      ∀ f, plan.fragments.get? n = some f → ∀ a ∈ f.addresses, a ∉ addresses laid := by
  rcases h.placed with ⟨rfl, hsame⟩ | ⟨f, hf, _, herase, hlaid, _⟩
  · rw [hsame] at hn
    exact ⟨hn, fun f _ a _ ha => (by cases ha)⟩
  · rw [herase] at hn
    obtain ⟨hne, hn⟩ := Std.TreeSet.mem_erase.1 hn
    refine ⟨hn, fun f' hf' a ha => ?_⟩
    rw [hlaid]
    refine hplan.apart n _ f' f hf' hf (fun heq => hne ?_) a ha
    rw [heq]
    exact Std.ReflCmp.compare_self

/-- What a step puts out keeps the addresses distinct. -/
theorem Stocked.nodup_emits (hplan : plan.Furnished) (hs : Stocked plan s)
    (h : Emits plan { s with work := rest } t task.block laid fresh) :
    (addresses t.output).Nodup := by
  have hlaid := hs.of_mem_laid h
  have hlaidNodup : (addresses laid).Nodup := by
    rcases h.placed with ⟨rfl, _⟩ | ⟨f, hf, _, _, hlaid, _⟩
    · exact .nil
    · rw [hlaid]
      exact hplan.nodup _ f hf
  rw [h.output, addresses, List.map_append, List.map_append]
  refine List.nodup_append.2 ⟨hs.nodup, List.nodup_append.2 ⟨hlaidNodup, h.takes.nodup, ?_⟩, ?_⟩
  · intro a ha b hb heq
    exact h.takes.not_mem_of_used (hlaid a ha).1 (heq ▸ hb)
  · intro a ha b hb heq
    rcases List.mem_append.1 (heq ▸ hb) with hb | hb
    · exact (hlaid a hb).2 ha
    · exact h.takes.not_mem_of_used (hs.used a ha) hb

/-- A block that has been laid out after a step was so before, or is the one of the step. -/
theorem Stocked.landed_emits (hs : Stocked plan s)
    (h : Emits plan { s with work := rest } t task.block laid fresh) {n : BlockId}
    (hn : plan.Has n) (hplaced : n ∉ t.unplaced) : ∃ k a, Lands plan.fragments k n a := by
  rcases h.placed with ⟨_, hsame⟩ | ⟨f, hf, _, herase, _, hlands⟩
  · exact hs.landed n hn (hsame ▸ hplaced)
  · by_cases heq : task.block = n
    · exact heq ▸ hlands
    · refine hs.landed n hn fun hin => hplaced ?_
      rw [herase]
      exact Std.TreeSet.mem_erase.2 ⟨fun hc => heq (Std.LawfulEqCmp.eq_of_compare hc), hin⟩

/-- **What holds before a step holds after it**, given what the step puts out. -/
theorem Stocked.emits (hplan : plan.Furnished) (hs : Stocked plan s)
    (hadv : Advances plan s t task rest)
    (h : Emits plan { s with work := rest } t task.block laid fresh) : Stocked plan t := by
  have hout : t.output = s.output ++ (laid ++ fresh) := h.output
  have hmem : ∀ a, a ∈ addresses t.output ↔
      a ∈ addresses s.output ∨ a ∈ addresses laid ∨ a ∈ addresses fresh := by
    intro a
    simp only [hout, addresses, List.map_append, List.mem_append]
  refine ⟨fun u hu => ?_, h.takes.ascending, hs.nodup_emits hplan h, fun a ha => ?_,
    fun n f hf a ha => ?_, fun n f hf hn a ha hmem' => ?_, fun i hi => ?_,
    fun n => hs.landed_emits h⟩
  · refine (h.work u hu).elim (fun hrest => hs.has u ?_) id
    rw [hadv.work]
    exact List.mem_cons_of_mem _ hrest
  · rcases (hmem a).1 ha with ha | ha | ha
    · exact (h.takes.used a).2 (.inr (hs.used a ha))
    · exact (h.takes.used a).2 (.inr (hs.of_mem_laid h a ha).1)
    · exact (h.takes.used a).2 (.inl ha)
  · exact (h.takes.used a).2 (.inr (hs.fragments n f hf a ha))
  · obtain ⟨hold, hnot⟩ := h.of_unplaced hplan hn
    rcases (hmem a).1 hmem' with hmem' | hmem' | hmem'
    · exact hs.apart n f hf hold a ha hmem'
    · exact hnot f hf a ha hmem'
    · exact h.takes.not_mem_of_used (hs.fragments n f hf a ha) hmem'
  · rw [hout] at hi
    rcases List.mem_append.1 hi with hi | hi
    · exact (hs.sent i hi).mono hadv
    · exact h.sent i hi

end Emitting

namespace Plan

variable {plan : Plan} {s t : State} {task : Task} {f : Fragment}

/-- What laying out a block puts out leads to where scheduled blocks land. -/
theorem sent_lay (hcommands : ∀ i ∈ f.code, ∃ a c, i = .command a c)
    (hleaves : Leaves plan t (s.output.length + f.code.length) f) (hlays : Lays plan s t task f)
    {new : List Instruction} (hnew : t.output = s.output ++ new) : ∀ i ∈ new, Sent plan t i := by
  have hcode : ∀ i ∈ f.code, Sent plan t i := by
    intro i hi
    obtain ⟨a, c, rfl⟩ := hcommands i hi
    exact .command a c
  cases hlays with
  | straight _ _ hout _ | leave _ _ hout _ _ =>
    rwa [List.append_cancel_left (hnew.symm.trans hout)]
  | ret _ _ hout _ =>
    rw [List.append_cancel_left (hnew.symm.trans hout)]
    exact List.forall_mem_append.2 ⟨hcode, List.forall_mem_singleton.2 (.command _ _)⟩
  | branch hending hk _ hout _ =>
    rw [Leaves, hending] at hleaves
    obtain ⟨_, _, _, _, hskip, _⟩ := hleaves
    rw [List.append_cancel_left (hnew.symm.trans hout)]
    exact List.forall_mem_append.2 ⟨hcode, List.forall_mem_singleton.2 (.jump rfl hk hskip)⟩

/-- **What a step puts out leads to where scheduled blocks land**, if fragments hold commands
only. -/
theorem sent_step {rest : List Task}
    (hcommands : ∀ n f, plan.fragments.get? n = some f → ∀ i ∈ f.code, ∃ a c, i = .command a c)
    (hadv : Advances plan s t task rest) (h : (plan.next s task rest).result = .ok t)
    {new : List Instruction} (hnew : t.output = s.output ++ new) : ∀ i ∈ new, Sent plan t i := by
  rcases stepped_of_step h with ⟨_, _, rfl⟩ | ⟨_, h⟩ | ⟨f, hf, _, hlands, h⟩
  · have hnil : new = [] := List.self_eq_append_right.1 hnew
    rw [hnil]
    exact List.forall_mem_nil _
  · obtain ⟨_, _, a, target, k, hout, hk, _⟩ := jumpTo_eq_ok h
    rw [List.append_cancel_left (hnew.symm.trans hout)]
    exact List.forall_mem_singleton.2 (.jump rfl hk hadv.scheduled)
  · exact sent_lay (hcommands _ f hf) (laysOut_of_lay hf hlands h).leaves (lays_of_lay h).2 hnew

theorem addresses_straight {next : Option BlockId} (h : f.ending = .straight next) :
    f.addresses = addresses f.code := by
  rw [Fragment.addresses, h, List.append_nil]

theorem addresses_branch {clauses : List Clause} {a : Address} {yes skip : BlockId}
    {merge : Option BlockId} (h : f.ending = .branch clauses a yes skip merge)
    (t : Option Address) : addresses (f.code ++ [.condition a clauses t]) = f.addresses := by
  rw [Fragment.addresses, h, addresses, List.map_append]
  rfl

/-- The tasks that a condition leaves are for blocks with fragments. -/
theorem has_ofBranch (hplan : plan.Furnished) {n : BlockId} {clauses : List Clause} {a : Address}
    {yes skip : BlockId} {merge : Option BlockId} (hf : plan.fragments.get? n = some f)
    (hending : f.ending = .branch clauses a yes skip merge) :
    ∀ u ∈ task.ofBranch yes skip merge, plan.Has u.block := by
  obtain ⟨hyes, hskip, hmerge⟩ := hplan.branch n f clauses a yes skip merge hf hending
  unfold Task.ofBranch
  split
  · rename_i m
    split
    · simp [hyes, hskip]
    · simp [hyes, hskip, hmerge m rfl]
  · simp [hyes, hskip]

/-- Laying out a block puts out its code, and a return if it needs one. -/
theorem emits_lay (hplan : plan.Furnished) (hp : s.pool.Ascending)
    (hf : plan.fragments.get? task.block = some f) (hn : task.block ∈ s.unplaced)
    (hlands : ∃ k a, Lands plan.fragments k task.block a)
    (h : (plan.lay s task f).result = .ok t)
    (hsent : ∀ new, t.output = s.output ++ new → ∀ i ∈ new, Sent plan t i) :
    ∃ laid fresh, Emits plan s t task.block laid fresh := by
  obtain ⟨hunplaced, hlays⟩ := lays_of_lay h
  have hplaced : ∀ {laid}, addresses laid = f.addresses → laid = [] ∧ t.unplaced = s.unplaced ∨
      ∃ f, plan.fragments.get? task.block = some f ∧ task.block ∈ s.unplaced ∧
        t.unplaced = s.unplaced.erase task.block ∧ addresses laid = f.addresses ∧
          ∃ k a, Lands plan.fragments k task.block a :=
    fun hlaid => .inr ⟨f, hf, hn, hunplaced, hlaid, hlands⟩
  have htakes : t.pool = s.pool → s.pool.Takes t.pool (addresses []) := fun hpool => by
    rw [hpool]
    exact .nil hp
  cases hlays with
  | @straight next hending hwork hout hpool =>
    rw [← List.append_nil f.code] at hout
    refine ⟨f.code, [], ⟨hout, htakes hpool, Nat.zero_le _,
      hplaced (addresses_straight hending).symm, hsent _ hout, fun u hu => ?_⟩⟩
    rw [hwork] at hu
    rcases List.mem_cons.1 hu with rfl | hu
    · exact .inr (hplan.next _ f next hf hending)
    · exact .inl hu
  | leave hending hwork hout hpool _ =>
    rw [← List.append_nil f.code] at hout
    exact ⟨f.code, [], ⟨hout, htakes hpool, Nat.zero_le _,
      hplaced (addresses_straight hending).symm, hsent _ hout, fun u hu => .inl (hwork ▸ hu)⟩⟩
  | @ret a hending hwork hout hfresh =>
    exact ⟨f.code, [.command a Command.ret], ⟨hout, .fresh hp hfresh, Nat.le_refl _,
      hplaced (addresses_straight hending).symm, hsent _ hout, fun u hu => .inl (hwork ▸ hu)⟩⟩
  | @branch clauses a target yes skip merge k hending hk hwork hout hpool =>
    rw [← List.append_nil (f.code ++ _)] at hout
    refine ⟨f.code ++ [.condition a clauses (some target)], [], ⟨hout,
      htakes hpool, Nat.zero_le _, hplaced (addresses_branch hending _), hsent _ hout,
      fun u hu => ?_⟩⟩
    rw [hwork] at hu
    rcases List.mem_append.1 hu with hu | hu
    · exact .inr (has_ofBranch hplan hf hending u hu)
    · exact .inl hu

theorem emits_step (hplan : plan.Furnished) {rest : List Task} (hs : Stocked plan s)
    (hadv : Advances plan s t task rest) (h : (plan.next s task rest).result = .ok t) :
    ∃ laid fresh, Emits plan { s with work := rest } t task.block laid fresh := by
  have hsent : ∀ new, t.output = s.output ++ new → ∀ i ∈ new, Sent plan t i :=
    fun new => sent_step hplan.commands hadv h
  rcases stepped_of_step h with ⟨_, _, rfl⟩ | ⟨_, h⟩ | ⟨f, hf, hn, hlands, h⟩
  · have hout := (List.append_nil s.output).symm
    exact ⟨[], [], ⟨hout, .nil hs.ascending, Nat.zero_le _, .inl ⟨rfl, rfl⟩, hsent _ hout,
      fun u hu => .inl hu⟩⟩
  · obtain ⟨hwork, hunplaced, a, target, _, hout, _, hfresh⟩ := jumpTo_eq_ok h
    exact ⟨[], [.goto a target], ⟨hout, .fresh hs.ascending hfresh, Nat.le_refl _,
      .inl ⟨rfl, hunplaced⟩, hsent _ hout, fun u hu => .inl (hwork ▸ hu)⟩⟩
  · exact emits_lay hplan hs.ascending hf hn hlands h hsent

/-- **A step keeps the addresses distinct**, and takes at most one. -/
theorem stocked_step (hplan : plan.Furnished) {rest : List Task} (hs : Stocked plan s)
    (hstack : Stacked s.work) (hw : s.work = task :: rest)
    (h : (plan.next s task rest).result = .ok t) :
    Stocked plan t ∧ Stacked t.work ∧ s.pool.room ≤ t.pool.room + 1 := by
  obtain ⟨hadv, hstack⟩ := advances_step hstack hw h
  obtain ⟨laid, fresh, hemits⟩ := emits_step hplan hs hadv h
  refine ⟨hs.emits hplan hadv hemits, hstack, ?_⟩
  have hroom : t.pool.room + (addresses fresh).length = s.pool.room := hemits.takes.room
  have hlength := hemits.length
  rw [addresses, List.length_map] at hroom
  omega

theorem jumpTo_eq_error (hplan : plan.Furnished) (hp : s.pool.Ascending) {n : BlockId} {e : Error}
    (hn : plan.Has n) (h : (plan.jumpTo s n).result = .error e) :
    e = .conflictingAddress Address.last ∧ s.pool.room = 0 ∨
      (∃ d, e = .unresolvedExit d) ∧ ∃ m, Relation.TransGen (PassesOn plan.fragments) m m := by
  rcases Logged.result_bind_eq_error.1 h with h | ⟨target, _, h⟩
  · exact .inr (entry_eq_error hplan hn h)
  rcases Logged.result_bind_eq_error.1 h with h | ⟨_, _, h⟩
  · exact .inl (AddressPool.fresh_eq_error hp h)
  · cases h

theorem lay_eq_error (hplan : plan.Furnished) (hp : s.pool.Ascending) {e : Error}
    (hf : plan.fragments.get? task.block = some f) (h : (plan.lay s task f).result = .error e) :
    e = .conflictingAddress Address.last ∧ s.pool.room = 0 ∨
      (∃ d, e = .unresolvedExit d) ∧ ∃ m, Relation.TransGen (PassesOn plan.fragments) m m := by
  unfold lay at h
  dsimp only at h
  split at h
  · cases h
  · left
    unfold leave at h
    split at h
    · cases h
    · rcases Logged.result_bind_eq_error.1 h with h | ⟨_, _, h⟩
      · exact AddressPool.fresh_eq_error hp h
      · cases h
  · rename_i clauses a yes skip merge hending
    rcases Logged.result_bind_eq_error.1 h with h | ⟨_, _, h⟩
    · exact .inr (entry_eq_error hplan (hplan.branch _ f _ _ _ _ _ hf hending).2.1 h)
    · cases h

/-- **A step fails only if** no address is left or control goes round in a circle. -/
theorem step_eq_error (hplan : plan.Furnished) (hp : s.pool.Ascending) {e : Error}
    (hn : plan.Has task.block) (h : (plan.step s task).result = .error e) :
    e = .conflictingAddress Address.last ∧ s.pool.room = 0 ∨
      (∃ d, e = .unresolvedExit d) ∧ ∃ m, Relation.TransGen (PassesOn plan.fragments) m m := by
  unfold step at h
  split at h
  · split at h
    · exact jumpTo_eq_error hplan hp hn h
    · cases h
  · obtain ⟨f, hf⟩ := hn
    rcases Logged.result_bind_eq_error.1 h with h | ⟨f', hf', h⟩
    · cases (plan.fragment_eq_ok_iff.2 hf).symm.trans h
    split at h
    · rcases Logged.result_bind_eq_error.1 h with h | ⟨_, _, h⟩
      · exact .inr (entry_eq_error hplan ⟨f, hf⟩ h)
      · exact lay_eq_error hplan hp (plan.fragment_eq_ok_iff.1 hf') h
    · exact jumpTo_eq_error hplan hp ⟨f, hf⟩ h

/-! ## All steps -/

theorem load_next {rest : List Task} (hw : s.work = task :: rest)
    (h : (plan.next s task rest).result = .ok t) : t.load + 1 ≤ s.load := by
  have hload := plan.load_step h
  simp only [State.load, hw, List.length_cons] at hload ⊢
  omega

/-- **A run keeps the addresses distinct**, and takes no more of them than its load. -/
theorem stocked_run (hplan : plan.Furnished) (hs : Stocked plan s) (hstack : Stacked s.work)
    (h : (plan.run s).result = .ok t) :
    Stocked plan t ∧ s.pool.room ≤ t.pool.room + s.load := by
  fun_induction run plan s with
  | case1 s hw =>
    cases h
    exact ⟨hs, Nat.le_add_right _ _⟩
  | case2 => cases h
  | case3 s task rest hw u events hu final ih =>
    have hstep : (plan.next s task rest).result = .ok u := by rw [hu]
    obtain ⟨hnext, hstack, hroom⟩ := stocked_step hplan hs hstack hw hstep
    obtain ⟨hfinal, hrest⟩ := ih hnext hstack h
    have hload := load_next hw hstep
    exact ⟨hfinal, by omega⟩

/-- **A run fails only if** the addresses run out or control goes round in a circle. -/
theorem run_eq_error (hplan : plan.Furnished) (hs : Stocked plan s) (hstack : Stacked s.work)
    {e : Error} (h : (plan.run s).result = .error e) :
    e = .conflictingAddress Address.last ∧ s.pool.room < s.load ∨
      (∃ d, e = .unresolvedExit d) ∧ ∃ m, Relation.TransGen (PassesOn plan.fragments) m m := by
  fun_induction run plan s with
  | case1 s hw => cases h
  | case2 s task rest hw e' events hu =>
    cases h
    have hstep : (plan.next s task rest).result = .error e := by rw [hu]
    have hhas := hs.has task (by rw [hw]; exact List.mem_cons_self)
    have hfailed := step_eq_error (s := { s with work := rest }) hplan hs.ascending hhas hstep
    refine hfailed.imp_left fun hconflict => ⟨hconflict.1, ?_⟩
    have hpool : s.pool.room = 0 := hconflict.2
    rw [State.load, hw, List.length_cons]
    omega
  | case3 s task rest hw u events hu final ih =>
    have hstep : (plan.next s task rest).result = .ok u := by rw [hu]
    obtain ⟨hnext, hstack, hroom⟩ := stocked_step hplan hs hstack hw hstep
    have hload := load_next hw hstep
    refine (ih hnext hstack h).imp_left fun hconflict => ⟨hconflict.1, ?_⟩
    have hlt := hconflict.2
    omega

end Plan
end Layout
end AdventureLogic
