import AdventureLogic.Proofs.Layout.Progress
import AdventureLogic.Proofs.Layout.Recompile
import AdventureLogic.Proofs.Program.Unbroken

/-!
# No block is lost or duplicated

A layout puts out nothing but instructions of fragments, gotos and returns
(`Layout.Emitted`), and all its jumps lead to where blocks land. A block lands
at the first instruction of a fragment, so no jump leads into the middle of one.
If control can go to a block from the root, whatever the tests say, then it may
come to the place where the block lands in the output: by falling into the
block, by a goto or by a skip (`Layout.Met`). So the block stays in one piece in
normal form.

Key definitions: `Layout.Fragment.instructions`, `Layout.Emitted`, `Layout.Met`.
Key theorems: `Plan.emitted_run`, `Layout.Complete.met_of_live`,
`BlockGraph.recompile_once`.
-/

namespace AdventureLogic

open Program (addresses Visited Visits Uncut)

namespace Layout

/-- The instructions of a fragment: its commands, and its condition if it has one, which skips
nowhere yet. -/
def Fragment.instructions (f : Fragment) : List Instruction :=
  f.code ++
    match f.ending with
    | .straight _ => []
    | .branch clauses a _ _ _ => [.condition a clauses none]

theorem Fragment.addresses_instructions (f : Fragment) :
    Program.addresses f.instructions = f.addresses := by
  unfold instructions addresses Program.addresses
  rw [List.map_append]
  cases f.ending <;> rfl

theorem instructions_of_pass {f : Fragment} {m : BlockId} (h : f.entrance = .pass m) :
    f.instructions = [] := by
  obtain ⟨hcode, hending⟩ := Plan.entrance_eq_pass h
  simp [Fragment.instructions, hcode, hending]

theorem instructions_of_leave {f : Fragment} (h : f.entrance = .leave) : f.instructions = [] := by
  obtain ⟨hcode, hending⟩ := Plan.entrance_eq_leave_iff.1 h
  simp [Fragment.instructions, hcode, hending]

namespace FragmentOf

variable {g : BlockGraph} {n : BlockId} {b : Block} {f : Fragment}

theorem isGoto_code (h : FragmentOf g n b f) : ∀ i ∈ f.code, i.isGoto = false := by
  intro i hi
  obtain ⟨a, c, rfl⟩ := h.eq_command hi
  rfl

theorem isGoto_instructions (h : FragmentOf g n b f) : ∀ i ∈ f.instructions, i.isGoto = false := by
  refine List.forall_mem_append.2 ⟨h.isGoto_code, fun i hi => ?_⟩
  split at hi
  · cases hi
  · rw [List.mem_singleton.1 hi]
    rfl

theorem unlinked_code (h : FragmentOf g n b f) : f.code.map Instruction.unlinked = f.code := by
  have hsame : f.code.map Instruction.unlinked = f.code.map id := by
    refine List.map_congr_left fun i hi => ?_
    obtain ⟨a, c, rfl⟩ := h.eq_command hi
    rfl
  rw [hsame, List.map_id]

end FragmentOf

/-! ## What is put out -/

/-- The instructions that a layout puts out. -/
inductive Emitted (plan : Plan) : Instruction → Prop where
  /-- A command of a fragment. -/
  | command {n : BlockId} {f : Fragment} {i : Instruction} (hf : plan.fragments.get? n = some f)
    (hi : i ∈ f.code) : Emitted plan i
  /-- The condition of a fragment. -/
  | test {n : BlockId} {f : Fragment} {clauses : List Clause} {a t : Address} {yes skip : BlockId}
    {merge : Option BlockId} {k : Nat} (hf : plan.fragments.get? n = some f)
    (he : f.ending = .branch clauses a yes skip merge) (hl : Lands plan.fragments k skip t) :
    Emitted plan (.condition a clauses (some t))
  /-- A goto to where a block lands. -/
  | jump {a t : Address} {k : Nat} {n : BlockId} (hl : Lands plan.fragments k n t) :
    Emitted plan (.goto a t)
  | ret (a : Address) : Emitted plan (.command a Command.ret)

namespace Plan

variable {plan : Plan} {s t : State} {task : Task} {f : Fragment}

theorem emitted_lay (hf : plan.fragments.get? task.block = some f)
    (h : (plan.lay s task f).result = .ok t) (hs : ∀ i ∈ s.output, Emitted plan i) :
    ∀ i ∈ t.output, Emitted plan i := by
  have hcode : ∀ i ∈ f.code, Emitted plan i := fun i hi => .command hf hi
  cases (lays_of_lay h).2 with
  | straight _ _ hout _ | leave _ _ hout _ _ =>
    rw [hout]
    exact List.forall_mem_append.2 ⟨hs, hcode⟩
  | ret _ _ hout _ =>
    rw [hout]
    exact List.forall_mem_append.2
      ⟨hs, List.forall_mem_append.2 ⟨hcode, List.forall_mem_singleton.2 (.ret _)⟩⟩
  | branch hending hk _ hout _ =>
    rw [hout]
    exact List.forall_mem_append.2
      ⟨hs, List.forall_mem_append.2 ⟨hcode, List.forall_mem_singleton.2 (.test hf hending hk)⟩⟩

theorem emitted_step (h : (plan.step s task).result = .ok t) (hs : ∀ i ∈ s.output, Emitted plan i) :
    ∀ i ∈ t.output, Emitted plan i := by
  rcases stepped_of_step h with ⟨_, _, rfl⟩ | ⟨_, h⟩ | ⟨f, hf, _, _, h⟩
  · exact hs
  · obtain ⟨_, _, a, target, k, hout, hk, _⟩ := jumpTo_eq_ok h
    rw [hout]
    exact List.forall_mem_append.2 ⟨hs, List.forall_mem_singleton.2 (.jump hk)⟩
  · exact emitted_lay hf h hs

/-- **A layout puts out nothing but instructions of fragments, gotos and returns.** -/
theorem emitted_run (h : (plan.run s).result = .ok t) (hs : ∀ i ∈ s.output, Emitted plan i) :
    ∀ i ∈ t.output, Emitted plan i := by
  fun_induction run plan s with
  | case1 s hw =>
    cases h
    exact hs
  | case2 => cases h
  | case3 s task rest hw u events hu final ih =>
    have hstep : (plan.next s task rest).result = .ok u := by rw [hu]
    exact ih h (emitted_step hstep hs)

end Plan

/-- Control that lands stops at a fragment. -/
theorem Lands.exists_stop {fragments : Fragments} {k : Nat} {n : BlockId} {a : Address}
    (h : Lands fragments k n a) :
    ∃ m f, fragments.get? m = some f ∧ f.entrance = .stop a := by
  induction h with
  | stop hf he => exact ⟨_, _, hf, he⟩
  | pass _ _ _ ih => exact ih

/-- Control stops at the first instruction of a fragment. -/
theorem head?_addresses_of_stop {f : Fragment} {a : Address} (h : f.entrance = .stop a) :
    f.addresses.head? = some a := by
  rcases Plan.entrance_eq_stop h with
    ⟨i, rest, hcode, rfl⟩ | ⟨hcode, clauses, yes, skip, merge, hend⟩
  · simp [Fragment.addresses, Program.addresses, hcode]
  · simp [Fragment.addresses, Program.addresses, hcode, hend]

section Sources

variable {plan : Plan} {i : Instruction}
  (hof : ∀ n f, plan.fragments.get? n = some f → ∃ b, FragmentOf plan.graph n b f)
include hof

/-- Jumps lead to where blocks land. -/
theorem Emitted.lands_of_target (h : Emitted plan i) {t : Address} (ht : i.target? = some t) :
    ∃ k n, Lands plan.fragments k n t := by
  cases h with
  | command hf hi =>
    obtain ⟨b, hb⟩ := hof _ _ hf
    obtain ⟨a, c, rfl⟩ := hb.eq_command hi
    cases ht
  | test hf he hl =>
    cases ht
    exact ⟨_, _, hl⟩
  | jump hl =>
    cases ht
    exact ⟨_, _, hl⟩
  | ret => cases ht

/-- What is not of a fragment is a goto or a return. -/
theorem Emitted.source (h : Emitted plan i) :
    (∃ n f, plan.fragments.get? n = some f ∧ i.unlinked ∈ f.instructions) ∨ i.isGoto = true ∨
      i.command? = some Command.ret := by
  cases h with
  | @command n f _ hf hi =>
    obtain ⟨b, hb⟩ := hof n f hf
    obtain ⟨a, c, rfl⟩ := hb.eq_command hi
    exact .inl ⟨n, f, hf, List.mem_append_left _ hi⟩
  | @test n f clauses a t yes skip merge k hf he hl =>
    refine .inl ⟨n, f, hf, List.mem_append_right _ ?_⟩
    rw [he]
    exact List.mem_cons_self
  | jump => exact .inr (.inl rfl)
  | ret => exact .inr (.inr rfl)

/-- **No jump leads into the middle of a fragment,** because the addresses of fragments are
distinct. -/
theorem uncut_of_emitted {pool : AddressPool} {code : List Instruction}
    (hapart : Apart plan.fragments pool) (hcode : ∀ i ∈ code, Emitted plan i) {n : BlockId}
    {f : Fragment} (hf : plan.fragments.get? n = some f) : Uncut code f.instructions := by
  intro a ha htarget
  have htail : a ∈ f.addresses.tail := by
    rwa [Program.addresses, List.map_tail, ← Program.addresses, f.addresses_instructions] at ha
  obtain ⟨i, hi, ht⟩ := List.mem_map.1 htarget
  obtain ⟨k, m, hl⟩ := (hcode i hi).lands_of_target hof ht
  obtain ⟨m, f', hf', he⟩ := hl.exists_stop
  obtain ⟨rest, hhead⟩ := List.head?_eq_some_iff.1 (head?_addresses_of_stop he)
  by_cases heq : m = n
  · subst heq
    obtain rfl := Option.some.inj (hf.symm.trans hf')
    have hnodup := hapart.nodup m f hf
    rw [hhead] at htail hnodup
    exact (List.nodup_cons.1 hnodup).1 htail
  · refine hapart.apart m n f' f hf' hf heq a ?_ (List.mem_of_mem_tail htail)
    rw [hhead]
    exact List.mem_cons_self

end Sources

/-! ## Where control may come -/

/-- A block is laid out, and control may come to where it lands. -/
structure Met (plan : Plan) (s : State) (n : BlockId) : Prop where
  has : plan.Has n
  placed : n ∉ s.unplaced
  visited : ∀ {k : Nat} {a : Address}, Lands plan.fragments k n a →
    Visited s.output (codeFrom s.output a)

theorem Lands.has {plan : Plan} {k : Nat} {n : BlockId} {a : Address}
    (h : Lands plan.fragments k n a) : plan.Has n := by
  cases h with
  | stop hf _ => exact ⟨_, hf⟩
  | pass hf _ _ => exact ⟨_, hf⟩

theorem exists_stop_of_branch {f : Fragment} {clauses : List Clause} {a : Address}
    {yes skip : BlockId} {merge : Option BlockId}
    (h : f.ending = .branch clauses a yes skip merge) : ∃ b, f.entrance = .stop b := by
  cases hcode : f.code with
  | nil => exact ⟨a, by rw [Fragment.entrance, hcode, h]⟩
  | cons i rest => exact ⟨i.address, by rw [Fragment.entrance, hcode]⟩

namespace Complete

variable {plan : Plan} {s : State}

theorem has_of_enters (h : Complete plan s) {p : Nat} {n : BlockId} (he : Enters plan s p n) :
    plan.Has n := by
  cases he with
  | stop hf _ _ _ => exact ⟨_, hf⟩
  | jump _ hl _ => exact hl.has
  | pass hf _ _ _ => exact ⟨_, hf⟩
  | next hw =>
    rw [h.work] at hw
    cases hw

/-- If control may come to a position where it enters a block, it may come to where the block
lands. -/
theorem visited_of_enters (h : Complete plan s) {p k : Nat} {n : BlockId} {a : Address}
    (he : Enters plan s p n) (hv : Visited s.output (s.output.drop p))
    (hl : Lands plan.fragments k n a) : Visited s.output (codeFrom s.output a) := by
  induction he generalizing k with
  | stop hf he _ hp =>
    obtain ⟨_, rfl⟩ := hl.unique (.stop hf he)
    rwa [codeFrom_eq_drop h.nodup hp]
  | jump hp hl' _ =>
    obtain ⟨_, rfl⟩ := hl.unique hl'
    obtain ⟨hlt, hgoto⟩ := List.getElem?_eq_some_iff.1 hp
    rw [List.drop_eq_getElem_cons hlt, hgoto] at hv
    exact hv.jump rfl
  | pass hf he _ _ ih =>
    obtain ⟨j, _, hm⟩ := hl.of_pass hf he
    exact ih hv hm
  | next hw =>
    rw [h.work] at hw
    cases hw

theorem met_of_enters (h : Complete plan s) {p : Nat} {n : BlockId} (he : Enters plan s p n)
    (hv : Visited s.output (s.output.drop p)) : Met plan s n :=
  ⟨h.has_of_enters he, he.placed h.work, h.visited_of_enters he hv⟩

theorem met_of_lands (h : Complete plan s) {k : Nat} {n : BlockId} {a : Address}
    (hl : Lands plan.fragments k n a) (hn : Scheduled s n)
    (hv : Visited s.output (codeFrom s.output a)) : Met plan s n := by
  refine ⟨hl.has, hn.placed h.work, fun hl' => ?_⟩
  obtain ⟨_, rfl⟩ := hl.unique hl'
  exact hv

/-- Control may come to the start of a block that is met, unless it passes through it. -/
theorem visited_of_stop (h : Complete plan s) {p : Nat} {n : BlockId} {f : Fragment} {a : Address}
    (hn : Met plan s n) (hf : plan.fragments.get? n = some f) (hl : Laid plan s p f)
    (he : f.entrance = .stop a) : Visited s.output (s.output.drop p) := by
  rw [← codeFrom_eq_drop h.nodup (hl.address_of_stop he)]
  exact hn.visited (.stop hf he)

/-- Control goes through the commands of a block to what follows them. -/
theorem visited_end (h : Complete plan s) {p : Nat} {n : BlockId} {f : Fragment} {a : Address}
    (hn : Met plan s n) (hf : plan.fragments.get? n = some f) (hl : Laid plan s p f)
    (he : f.entrance = .stop a) : Visited s.output (s.output.drop (p + f.code.length)) := by
  obtain ⟨b, hb⟩ := h.fragmentOf n f hf
  have hv := h.visited_of_stop hn hf hl he
  rw [hl.code] at hv
  exact hv.append hb.isGoto_code

theorem met_of_straight (h : Complete plan s) {n m : BlockId} {f : Fragment} (hn : Met plan s n)
    (hf : plan.fragments.get? n = some f) (hending : f.ending = .straight (some m)) :
    Met plan s m := by
  obtain ⟨p, hl⟩ := h.invariant.laid n f hf hn.placed
  have hleaves := hl.leaves
  rw [Leaves, hending] at hleaves
  cases he : f.entrance with
  | stop a => exact h.met_of_enters hleaves (h.visited_end hn hf hl he)
  | pass k =>
    -- An empty block lands where the next one does.
    have hpass := (Plan.entrance_eq_pass he).2
    rw [hending] at hpass
    cases hpass
    exact ⟨h.has_of_enters hleaves, hleaves.placed h.work,
      fun hl' => hn.visited (.pass hf he hl')⟩
  | leave =>
    have hleave := (Plan.entrance_eq_leave_iff.1 he).2
    rw [hending] at hleave
    cases hleave

theorem met_of_branch (h : Complete plan s) {n yes skip : BlockId} {f : Fragment}
    {clauses : List Clause} {a : Address} {merge : Option BlockId} (hn : Met plan s n)
    (hf : plan.fragments.get? n = some f) (hending : f.ending = .branch clauses a yes skip merge) :
    Met plan s yes ∧ Met plan s skip := by
  obtain ⟨p, hl⟩ := h.invariant.laid n f hf hn.placed
  obtain ⟨_, he⟩ := exists_stop_of_branch hending
  have hv := h.visited_end hn hf hl he
  have hleaves := hl.leaves
  rw [Leaves, hending] at hleaves
  obtain ⟨t, k, hcond, hlands, hskip, hyes⟩ := hleaves
  obtain ⟨hlt, hcond⟩ := List.getElem?_eq_some_iff.1 hcond
  rw [List.drop_eq_getElem_cons hlt, hcond] at hv
  exact ⟨h.met_of_enters hyes (hv.next rfl), h.met_of_lands hlands hskip (hv.jump rfl)⟩

/-- **Where control goes from a block that is met, it meets a block.** -/
theorem met_of_leadsTo (h : Complete plan s) {n m : BlockId} (hn : Met plan s n)
    (hm : plan.graph.LeadsTo n m) : Met plan s m := by
  obtain ⟨f, hf⟩ := hn.has
  obtain ⟨b, hb⟩ := h.fragmentOf n f hf
  rcases hb.ending_of_leadsTo hm with hending | ⟨_, _, yes, skip, _, hending, rfl | rfl⟩
  · exact h.met_of_straight hn hf hending
  · exact (h.met_of_branch hn hf hending).1
  · exact (h.met_of_branch hn hf hending).2

/-- **Every block to which control can go from the root is met.** -/
theorem met_of_live (h : Complete plan s) {n : BlockId}
    (hn : Relation.ReflTransGen plan.graph.LeadsTo plan.graph.root n) : Met plan s n := by
  induction hn with
  | refl => exact h.met_of_enters h.invariant.root .start
  | tail _ hm ih => exact h.met_of_leadsTo ih hm

/-- Where a block is laid out, its instructions stand. -/
theorem exists_run {p : Nat} {n : BlockId} {b : Block} {f : Fragment}
    (hb : FragmentOf plan.graph n b f) (hl : Laid plan s p f) :
    ∃ run rest, s.output.drop p = run ++ rest ∧ run.map Instruction.unlinked = f.instructions := by
  have hleaves := hl.leaves
  cases hending : f.ending with
  | straight next =>
    refine ⟨f.code, _, hl.code, ?_⟩
    simp [Fragment.instructions, hending, hb.unlinked_code]
  | branch clauses a yes skip merge =>
    rw [Leaves, hending] at hleaves
    obtain ⟨t, k, hcond, _⟩ := hleaves
    obtain ⟨hlt, hcond⟩ := List.getElem?_eq_some_iff.1 hcond
    refine ⟨f.code ++ [.condition a clauses (some t)], s.output.drop (p + f.code.length + 1), ?_,
      ?_⟩
    · rw [hl.code, List.drop_eq_getElem_cons hlt, hcond, List.append_assoc]
      rfl
    · simp [Fragment.instructions, hending, hb.unlinked_code, Instruction.unlinked]

/-- Control may come to the instructions of a block that is met. -/
theorem visits_of_met (h : Complete plan s) {n : BlockId} {f : Fragment} (hn : Met plan s n)
    (hf : plan.fragments.get? n = some f) : Visits s.output f.instructions := by
  obtain ⟨b, hb⟩ := h.fragmentOf n f hf
  obtain ⟨p, hl⟩ := h.invariant.laid n f hf hn.placed
  cases he : f.entrance with
  | stop a =>
    have hv := h.visited_of_stop hn hf hl he
    obtain ⟨run, rest, hdrop, hrun⟩ := exists_run hb hl
    exact ⟨run, rest, hdrop ▸ hv, hrun⟩
  | pass m => exact ⟨[], _, .start, (instructions_of_pass he).symm⟩
  | leave => exact ⟨[], _, .start, (instructions_of_leave he).symm⟩

end Complete
end Layout

namespace BlockGraph

open Layout

theorem persists_source {fragments : Fragments} :
    Program.Persists fun i => (∃ n f, fragments.get? n = some f ∧ i.unlinked ∈ f.instructions) ∨
      i.isGoto = true ∨ i.command? = some Command.ret := by
  refine ⟨fun t i hi => ?_, fun a t => .inr (.inl rfl), fun a => .inr (.inr rfl)⟩
  cases i with
  | command a c => exact hi
  | condition a clauses skip => exact hi
  | goto a u => exact .inr (.inl rfl)

/-- **No block is lost or duplicated.** Take a graph that has been recompiled. If control can go to
a block from the root, open branches leading to the merge point, its commands and its condition stand
in the code one after the other, each of them once, and no two blocks share an instruction. The
instructions of any other block stand there at most once. All else is a goto or a return, and no two
instructions have one address. -/
theorem recompile_once (g : BlockGraph) (selfContained : Bool) (listing : Listing)
    (h : (g.recompile selfContained).result = .ok listing) :
    ∃ fragments pool, g.compile.result = .ok (fragments, pool) ∧
      (∀ n, Relation.ReflTransGen g.LeadsTo g.root n →
        ∃ b f, fragments.get? n = some f ∧ FragmentOf g n b f ∧
          f.instructions <:+: listing.code.map Instruction.unlinked ∧
          ∀ i ∈ f.instructions, (listing.code.map Instruction.unlinked).count i = 1) ∧
      (∀ n m f f', fragments.get? n = some f → fragments.get? m = some f' → n ≠ m →
        f.instructions.Disjoint f'.instructions) ∧
      (∀ n f, fragments.get? n = some f →
        ∀ i ∈ f.instructions, (listing.code.map Instruction.unlinked).count i ≤ 1) ∧
      (∀ i ∈ listing.code,
        (∃ n f, fragments.get? n = some f ∧ i.unlinked ∈ f.instructions) ∨ i.isGoto = true ∨
          i.command? = some Command.ret) ∧
      (addresses listing.code).Nodup := by
  obtain ⟨final, p, hfinal, hp, hok, rfl⟩ := recompile_eq_ok_iff.1 h
  obtain ⟨hsound, hcode⟩ := Program.sound_ofCode hp
  obtain ⟨plan, pool, rfl, hcompile, hrun⟩ := exists_plan hfinal
  have hcomplete := complete_run hcompile hrun (hcode ▸ hsound.closed.nodup)
  have hemitted : ∀ i ∈ p.code, Emitted plan i := by
    rw [hcode]
    exact Plan.emitted_run hrun fun i hi => nomatch hi
  have hnodup := (Program.refined_normalize hsound hok).2.closed.nodup
  have honce : ((p.normalize selfContained).program.code.map Instruction.unlinked).Nodup := by
    refine List.Nodup.of_map Instruction.address ?_
    rw [← addresses, Program.addresses_map_unlinked]
    exact hnodup
  have hapart := (compiled_compile hcompile).apart
  refine ⟨plan.fragments, pool, hcompile, fun n hn => ?_, fun n m f f' hf hf' hne i hi hi' => ?_,
    fun n f _ i _ => ?_, ?_, hnodup⟩
  · have hmet := hcomplete.met_of_live hn
    obtain ⟨f, hf⟩ := hmet.has
    obtain ⟨b, hb⟩ := hcomplete.fragmentOf n f hf
    have hvisits : Visits p.code f.instructions := hcode ▸ hcomplete.visits_of_met hmet hf
    have huncut : Uncut p.code f.instructions :=
      uncut_of_emitted hcomplete.fragmentOf hapart hemitted hf
    have hstands := Program.infix_normalize hsound hb.isGoto_instructions hvisits huncut hok
    exact ⟨b, f, hf, hb, hstands, fun i hi => List.count_eq_one_of_mem honce (hstands.subset hi)⟩
  · refine hapart.apart n m f f' hf hf' hne i.address ?_ ?_
    · rw [← f.addresses_instructions]
      exact List.mem_map_of_mem hi
    · rw [← f'.addresses_instructions]
      exact List.mem_map_of_mem hi'
  · exact List.nodup_iff_count_le_one.1 honce i
  · exact persists_source.normalize hsound (fun i hi => (hemitted i hi).source hcomplete.fragmentOf)
      hok

/-- A loop whose second condition skips back out of the region of the first, which is left open.
An edge leads to the last block, but control never goes there. -/
def outwardSkipGraph : BlockGraph where
  entries := #[
    .addEdge (.ofBlock { commands := [⟨12, [1]⟩]
                         exit := .branch [.test ⟨7, [5], false⟩] (some 1) none }) 2,
    .ofBlock { commands := [⟨12, [2]⟩], exit := .branch [.test ⟨7, [6], true⟩] (some 2) (some 0) },
    .addEdge (.ofBlock { commands := [⟨12, [3]⟩], exit := .single none }) 3,
    .ofBlock { commands := [⟨12, [4]⟩], exit := .single none }]

theorem recompile_once_outwardSkipGraph :
    ∃ listing, (outwardSkipGraph.recompile true).result = .ok listing ∧
      listing.code = [.command 0 ⟨12, [1]⟩, .condition 1 [.test ⟨7, [5], false⟩] (some 4),
        .command 2 ⟨12, [2]⟩, .condition 3 [.test ⟨7, [6], true⟩] (some 8), .goto 6 4, .goto 8 0,
        .command 4 ⟨12, [3]⟩] ∧
      outwardSkipGraph.LeadsTo outwardSkipGraph.root 1 ∧
      outwardSkipGraph.LeadsTo outwardSkipGraph.root 2 ∧
      [.command 2 ⟨12, [2]⟩, .condition 3 [.test ⟨7, [6], true⟩] none] <:+:
        listing.code.map Instruction.unlinked ∧
      (listing.code.map Instruction.unlinked).count (.command 4 ⟨12, [3]⟩) = 1 ∧
      (listing.code.map Instruction.unlinked).count (.command 5 ⟨12, [4]⟩) ≤ 1 ∧
      (addresses listing.code).Nodup := by
  have hrun : (outwardSkipGraph.compile.result >>= fun compiled =>
      outwardSkipGraph.layOut.result >>= fun final =>
      Program.ofCode final.output final.labels >>= fun p =>
      p.dropUnreachable.program.relabel >>= fun q =>
      q.selfContain.program.relabel.map fun r =>
        ([0, 1, 2, 3].map compiled.1.get?,
          (p.dropUnreachable.result, q.dropUnreachable.result, q.selfContain.result,
            r.selfContain.result, r.dropRedundantGotos.result), r.code)) =
      .ok ([some ⟨[.command 0 ⟨12, [1]⟩], .branch [.test ⟨7, [5], false⟩] 1 1 2 (some 2)⟩,
          some ⟨[.command 2 ⟨12, [2]⟩], .branch [.test ⟨7, [6], true⟩] 3 2 0 (some 2)⟩,
          some ⟨[.command 4 ⟨12, [3]⟩], .straight none⟩,
          some ⟨[.command 5 ⟨12, [4]⟩], .straight none⟩],
        (.ok true, .ok false, .ok true, .ok false, .ok false),
        [.command 0 ⟨12, [1]⟩, .condition 1 [.test ⟨7, [5], false⟩] (some 4),
          .command 2 ⟨12, [2]⟩, .condition 3 [.test ⟨7, [6], true⟩] (some 8), .goto 6 4,
          .goto 8 0, .command 4 ⟨12, [3]⟩]) := by cbv
  obtain ⟨⟨fragments, pool⟩, hcompile, hrun⟩ := Result.bind_eq_ok.1 hrun
  obtain ⟨final, hfinal, hrun⟩ := Result.bind_eq_ok.1 hrun
  obtain ⟨p, hp, hrun⟩ := Result.bind_eq_ok.1 hrun
  obtain ⟨q, hq, hrun⟩ := Result.bind_eq_ok.1 hrun
  obtain ⟨r, hr, hrun⟩ := Result.map_eq_ok.1 hrun
  simp only [Prod.mk.injEq, List.map_cons, List.map_nil, List.cons.injEq] at hrun
  obtain ⟨⟨h₀, h₁, h₂, h₃, _⟩, ⟨hdrop, hdropped, hdetour, hcontained, htidy⟩, hcode⟩ := hrun
  obtain ⟨hq', hfirst⟩ := Pass.toFixpoint_once .unreachable Pass.unreachable.name hdrop hq hdropped
  obtain ⟨hr', hsecond⟩ :=
    Pass.toFixpoint_once .selfContained Pass.selfContained.name hdetour hr hcontained
  obtain ⟨hlast, hthird⟩ :
      (Pass.redundantGotos.toFixpoint Pass.redundantGotos.name r).program = r ∧
        (Pass.redundantGotos.toFixpoint Pass.redundantGotos.name r).result = .ok 0 :=
    Pass.settle_of_unchanged htidy
  subst hq' hr'
  obtain ⟨hok, hnormal⟩ := Program.normalize_of_ok hfirst hsecond hthird
  have hrecompiled : (outwardSkipGraph.recompile true).result =
      .ok (p.normalize true).program.listing :=
    recompile_eq_ok_iff.2 ⟨final, p, hfinal, hp, hok, rfl⟩
  have hyes : outwardSkipGraph.LeadsTo outwardSkipGraph.root 1 := .yes rfl rfl rfl
  have hopen : outwardSkipGraph.LeadsTo outwardSkipGraph.root 2 := by
    obtain ⟨b, hb⟩ := fragmentOf_compile hcompile h₀
    obtain ⟨hmerge, _⟩ := hb.exit_branch rfl
    exact .no rfl rfl hmerge.symm
  obtain ⟨_, _, hcompile', hlive, _, hmost, _, hnodup⟩ :=
    recompile_once outwardSkipGraph true _ hrecompiled
  cases hcompile.symm.trans hcompile'
  obtain ⟨_, f₁, hf₁, _, hstands, _⟩ := hlive 1 (.single hyes)
  obtain ⟨_, f₂, hf₂, _, _, honce⟩ := hlive 2 (.single hopen)
  obtain rfl := Option.some.inj (hf₁.symm.trans h₁)
  obtain rfl := Option.some.inj (hf₂.symm.trans h₂)
  refine ⟨_, hrecompiled, ?_, hyes, hopen, hstands, honce _ List.mem_cons_self,
    hmost 3 _ h₃ _ List.mem_cons_self, hnodup⟩
  rw [← hcode, ← hlast, ← hnormal]
  rfl

end BlockGraph
end AdventureLogic
