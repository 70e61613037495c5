import AdventureLogic.Proofs.BlockGraph.Resolved
import AdventureLogic.Proofs.Result

/-!
# Where control can go in code

Control goes from an instruction to the next one or to the target of its jump.
The search for blocks follows it: it fails exactly if a jump leads nowhere or
control can run off the end of the code in a condition. If it succeeds, then
every position that control can reach lies in a block, and a round of gotos in
the code is a round of empty blocks in the graph.

Key definitions: `Leads`, `Reaches`, `Hops`, `GotoCycle`.
Key theorems: `BlockGraph.exists_ofInstructions_iff`, `BlockGraph.Outlines.covers`,
`BlockGraph.Outlines.gotoCycle_iff`.
-/

namespace AdventureLogic

open Program (addresses)

/-- Control goes from an instruction to the next one, or to the target of its jump. -/
inductive Leads (code : List Instruction) : Nat → Nat → Prop where
  | next {p : Nat} {i : Instruction} (hi : code[p]? = some i) (hfalls : i.fallsThrough = true)
    (hlt : p + 1 < code.length) : Leads code p (p + 1)
  | jump {p q : Nat} {i : Instruction} {t : Address} (hi : code[p]? = some i)
    (ht : i.target? = some t) (hq : code[q]?.map Instruction.address = some t) : Leads code p q

/-- Control can come from the first instruction to a position. -/
def Reaches (code : List Instruction) (p : Nat) : Prop :=
  code ≠ [] ∧ Relation.ReflTransGen (Leads code) 0 p

/-- A goto leads from `p` to `q`. -/
def Hops (code : List Instruction) (p q : Nat) : Prop :=
  ∃ a t, code[p]? = some (.goto a t) ∧ code[q]?.map Instruction.address = some t

/-- Control can come to gotos that lead round in a circle. -/
def GotoCycle (code : List Instruction) : Prop :=
  ∃ p, Reaches code p ∧ Relation.TransGen (Hops code) p p

/-- Control can come to the last instruction, and that is a condition. -/
def EndsInCondition (code : List Instruction) : Prop :=
  ∃ a clauses skip, code.getLast? = some (.condition a clauses skip) ∧
    Reaches code (code.length - 1)

/-- Some jump leads to no instruction. -/
def Dangling (code : List Instruction) : Prop :=
  ∃ i ∈ code, ∃ t, i.target? = some t ∧ t ∉ addresses code

section Reaching

variable {code : List Instruction}

theorem Reaches.next {p : Nat} {i : Instruction} (h : Reaches code p) (hi : code[p]? = some i)
    (hfalls : i.fallsThrough = true) (hlt : p + 1 < code.length) : Reaches code (p + 1) :=
  ⟨h.1, h.2.tail (.next hi hfalls hlt)⟩

theorem Reaches.jump {p q : Nat} {i : Instruction} {t : Address} (h : Reaches code p)
    (hi : code[p]? = some i) (ht : i.target? = some t)
    (hq : code[q]?.map Instruction.address = some t) : Reaches code q :=
  ⟨h.1, h.2.tail (.jump hi ht hq)⟩

theorem Reaches.hops {p q : Nat} (h : Reaches code p)
    (hpq : Relation.ReflTransGen (Hops code) p q) : Reaches code q := by
  induction hpq with
  | refl => exact h
  | tail _ hop ih =>
    obtain ⟨a, t, hi, ht⟩ := hop
    exact ih.jump hi rfl ht

end Reaching

namespace Code

/-- Code whose jumps all lead to instructions, and whose conditions have skip targets. -/
structure Linked (code : List Instruction) : Prop where
  target_mem : ∀ i ∈ code, ∀ t, i.target? = some t → t ∈ addresses code
  skip : ∀ i ∈ code, ∀ a clauses, i ≠ .condition a clauses none

theorem exists_resolve_iff {code : List Instruction} {a t : Address} :
    (∃ p, resolve (positionsOf code) a t = .ok p) ↔ t ∈ addresses code := by
  rw [addresses, ← contains_positionsOf, NatMap.contains, Option.isSome_iff_exists]
  unfold resolve
  refine exists_congr fun p => ?_
  cases (positionsOf code).get? t.toNat <;> simp

theorem exists_leadersAt_iff {code : List Instruction} {i : Instruction} {position : Nat} :
    (∃ found, leadersAt (positionsOf code) i position = .ok found) ↔
      (∀ t, i.target? = some t → t ∈ addresses code) ∧
        ∀ a clauses, i ≠ .condition a clauses none := by
  have hjump : ∀ (a t : Address) (after : List Nat),
      (∃ found, (resolve (positionsOf code) a t).map (fun p => after ++ [p]) = .ok found) ↔
        t ∈ addresses code := by
    intro a t after
    rw [← exists_resolve_iff (a := a)]
    simp only [Result.map_eq_ok]
    exact ⟨fun ⟨_, p, hp, _⟩ => ⟨p, hp⟩, fun ⟨p, hp⟩ => ⟨_, p, hp, rfl⟩⟩
  cases i with
  | command a c => simp [leadersAt, Instruction.target?]
  | goto a t =>
    refine (hjump a t [position + 1]).trans ?_
    simp [Instruction.target?]
  | condition a clauses skip =>
    cases skip with
    | none => simp [leadersAt]
    | some t =>
      refine (hjump a t [position + 1]).trans ?_
      simp [Instruction.target?]

/-- The leaders of code are found exactly if its jumps lead somewhere. -/
theorem exists_ofInstructions_iff {code : List Instruction} :
    (∃ marked, ofInstructions code = .ok marked) ↔ Linked code := by
  have hfound : (∃ marked, ofInstructions code = .ok marked) ↔
      ∃ found, (code.zipIdx.mapM fun p => leadersAt (positionsOf code) p.1 p.2) = .ok found := by
    unfold ofInstructions findLeaders
    simp only [Result.map_eq_ok]
    constructor
    · rintro ⟨_, _, ⟨found, h, _⟩, _⟩
      exact ⟨found, h⟩
    · rintro ⟨found, h⟩
      exact ⟨_, _, ⟨found, h, rfl⟩, rfl⟩
  rw [hfound, Result.exists_mapM_iff]
  simp only [exists_leadersAt_iff]
  constructor
  · intro h
    have hall : ∀ i ∈ code, ∃ n, (i, n) ∈ code.zipIdx := fun i hi => by
      obtain ⟨n, hn⟩ := List.mem_iff_getElem?.1 hi
      exact ⟨n, List.mk_mem_zipIdx_iff_getElem?.2 hn⟩
    exact ⟨fun i hi => (h _ (hall i hi).choose_spec).1, fun i hi => (h _ (hall i hi).choose_spec).2⟩
  · rintro h ⟨i, n⟩ hin
    have hi : i ∈ code := List.mem_of_getElem? (List.mk_mem_zipIdx_iff_getElem?.1 hin)
    exact ⟨h.target_mem i hi, h.skip i hi⟩

/-- What a scan from a position that control can reach comes to: to positions that control can
reach, or to a condition at the end of the code. -/
theorem reaches_scanFrom {code : Code} (hcode : code.Proper) (hlinked : Linked code.instructions)
    {first : Bool} {position : Nat} {left : List Instruction}
    (hleft : code.instructions.drop position = left)
    (hreach : left ≠ [] → Reaches code.instructions position) :
    (∀ r, code.scanFrom first position left = .ok r →
      ∀ q ∈ r.2.targets, Reaches code.instructions q) ∧
    ∀ e, code.scanFrom first position left = .error e → EndsInCondition code.instructions := by
  have hresolve : ∀ {i : Instruction} {t : Address} (a : Address), i ∈ code.instructions →
      i.target? = some t → ∃ p, resolve code.positions a t = .ok p ∧
        code.instructions[p]?.map Instruction.address = some t := by
    intro i t a hi ht
    obtain ⟨p, hp⟩ := (exists_resolve_iff (a := a)).2 (hlinked.target_mem i hi t ht)
    exact ⟨p, hcode.positions ▸ hp, (resolve_eq_ok hp).2⟩
  fun_induction scanFrom code first position left with
  | case1 first position =>
    refine ⟨fun r h q hq => ?_, fun e h => (by cases h)⟩
    cases h
    cases hq
  | case2 first position i rest _ =>
    refine ⟨fun r h q hq => ?_, fun e h => (by cases h)⟩
    cases h
    rw [List.mem_singleton.1 hq]
    exact hreach (List.cons_ne_nil _ _)
  | case3 first position rest _ a c hret =>
    refine ⟨fun r h q hq => ?_, fun e h => (by cases h)⟩
    cases h
    cases hq
  | case4 first position rest _ a c hret ih =>
    obtain ⟨hget, hdrop, hlen⟩ := drop_eq_cons hleft
    have hnext : rest ≠ [] → Reaches code.instructions (position + 1) := fun hrest => by
      have hpos := List.length_pos_iff.2 hrest
      have hfalls : (Instruction.command a c).fallsThrough = true := by
        simpa [Instruction.fallsThrough] using hret
      exact (hreach (List.cons_ne_nil _ _)).next hget hfalls (by omega)
    obtain ⟨hok, herror⟩ := ih hdrop hnext
    refine ⟨fun r h => ?_, fun e h => ?_⟩
    · obtain ⟨r', hr', rfl⟩ := Result.map_eq_ok.1 h
      exact hok r' hr'
    · exact herror e (Result.map_eq_error.1 h)
  | case5 first position rest _ a clauses skip hrest =>
    refine ⟨fun r h => (by cases h), fun e h => ?_⟩
    obtain ⟨hget, _, hlen⟩ := drop_eq_cons hleft
    rw [List.isEmpty_iff.1 hrest, List.length_nil] at hlen
    have hlast : code.instructions.length - 1 = position := by omega
    refine ⟨a, clauses, skip, ?_, hlast ▸ hreach (List.cons_ne_nil _ _)⟩
    rw [List.getLast?_eq_getElem?, hlast, hget]
  | case6 first position rest _ a clauses =>
    obtain ⟨hget, _, _⟩ := drop_eq_cons hleft
    exact absurd rfl (hlinked.skip _ (List.mem_of_getElem? hget) a clauses)
  | case7 first position rest _ a clauses hrest t =>
    obtain ⟨hget, _, hlen⟩ := drop_eq_cons hleft
    have hpos : 0 < rest.length := List.length_pos_iff.2 (by simpa using hrest)
    have hhere := hreach (List.cons_ne_nil _ _)
    obtain ⟨p, hp, hpt⟩ := hresolve a (List.mem_of_getElem? hget) rfl
    rw [hp]
    refine ⟨fun r h q hq => ?_, fun e h => (by cases h)⟩
    cases h
    rcases List.mem_cons.1 hq with rfl | hq
    · exact hhere.next hget rfl (by omega)
    · rw [List.mem_singleton.1 hq]
      exact hhere.jump hget rfl hpt
  | case8 first position rest _ a t =>
    obtain ⟨hget, _, _⟩ := drop_eq_cons hleft
    obtain ⟨p, hp, hpt⟩ := hresolve a (List.mem_of_getElem? hget) rfl
    rw [hp]
    refine ⟨fun r h q hq => ?_, fun e h => (by cases h)⟩
    cases h
    rw [List.mem_singleton.1 hq]
    exact (hreach (List.cons_ne_nil _ _)).jump hget rfl hpt

theorem reaches_scan {code : Code} (hcode : code.Proper) (hlinked : Linked code.instructions)
    {start : Nat} (hreach : Reaches code.instructions start) :
    (∀ span, code.scan start = .ok span → ∀ q ∈ span.ending.targets, Reaches code.instructions q) ∧
    ∀ e, code.scan start = .error e → EndsInCondition code.instructions := by
  refine ⟨fun span h => ?_, fun e h => ?_⟩
  · exact (reaches_scanFrom hcode hlinked rfl fun _ => hreach).1 _ (scan_eq_ok h)
  · rw [scan, getD_tails, Result.map_eq_error] at h
    exact (reaches_scanFrom hcode hlinked rfl fun _ => hreach).2 e h

/-- **The search follows control.** What it finds can be reached, and it fails only if control can
come to a condition at the end of the code. -/
theorem reaches_discoverFrom {code : Code} (hcode : code.Proper)
    (hlinked : Linked code.instructions) {unseen : Std.TreeSet Nat} {work : List Nat}
    (hwork : ∀ q ∈ work, Reaches code.instructions q) :
    (∀ spans, code.discoverFrom unseen work = .ok spans →
      ∀ span ∈ spans, Reaches code.instructions span.start) ∧
    ∀ e, code.discoverFrom unseen work = .error e → EndsInCondition code.instructions := by
  fun_induction discoverFrom code unseen work with
  | case1 =>
    refine ⟨fun spans h span hspan => ?_, fun e h => (by cases h)⟩
    cases h
    cases hspan
  | case2 unseen start work _ e hscan =>
    obtain ⟨hstart, _⟩ := List.forall_mem_cons.1 hwork
    exact ⟨fun spans h => (by cases h), fun _ _ => (reaches_scan hcode hlinked hstart).2 e hscan⟩
  | case3 unseen start work _ span hscan ih =>
    obtain ⟨hstart, hwork⟩ := List.forall_mem_cons.1 hwork
    have htargets := (reaches_scan hcode hlinked hstart).1 span hscan
    obtain ⟨hok, herror⟩ := ih (List.forall_mem_append.2 ⟨htargets, hwork⟩)
    refine ⟨fun spans h => ?_, fun e h => ?_⟩
    · obtain ⟨rest, hrest, rfl⟩ := Result.map_eq_ok.1 h
      exact List.forall_mem_cons.2 ⟨start_scan hscan ▸ hstart, hok rest hrest⟩
    · exact herror e (Result.map_eq_error.1 h)
  | case4 unseen start work _ ih => exact ih (List.forall_mem_cons.1 hwork).2

theorem reaches_discover {code : Code} (hcode : code.Proper) (hlinked : Linked code.instructions)
    (hne : code.instructions ≠ []) :
    (∀ spans, code.discover = .ok spans → ∀ span ∈ spans, Reaches code.instructions span.start) ∧
    ∀ e, code.discover = .error e → EndsInCondition code.instructions := by
  refine reaches_discoverFrom hcode hlinked fun q hq => ?_
  rw [List.mem_singleton.1 hq]
  exact ⟨hne, .refl⟩

end Code

namespace BlockGraph

namespace Outlines

variable {code : List Instruction} {g : BlockGraph} {start : BlockId → Nat}

/-- A position lies in a block: a command of it stands there, or what ends the block. -/
def Covers (code : List Instruction) (g : BlockGraph) (start : BlockId → Nat) (p : Nat) : Prop :=
  ∃ n b k, g.block? n = some b ∧ p = start n + k ∧ k ≤ b.commands.length ∧
    (k = b.commands.length → p < code.length ∧ (∀ m < g.size, start m = p → m = n) ∧
      ∀ c, b.commands.getLast? = some c → c.isReturn = false)

/-- The start of a block lies in it. -/
theorem covers_start (h : Outlines code g start) {n : BlockId} (hn : n < g.size) :
    Covers code g start (start n) := by
  obtain ⟨b, hb⟩ := exists_block hn
  refine ⟨n, b, 0, hb, rfl, Nat.zero_le _, fun hnil => ⟨?_, fun m hm hstart => ?_, fun c hc => ?_⟩⟩
  · have hends := (h.block n b hb).ends
    have hempty : b.commands = [] := List.length_eq_zero_iff.1 hnil.symm
    rw [← hnil, Nat.add_zero] at hends
    cases hends with
    | branch hcondition => exact (List.getElem?_eq_some_iff.1 hcondition).1
    | goto hgoto => exact (List.getElem?_eq_some_iff.1 hgoto).1
    | next hne => exact absurd hempty hne
    | leave hne => exact absurd hempty hne
  · exact h.injective m hm n hn hstart
  · rw [List.length_eq_zero_iff.1 hnil.symm] at hc
    cases hc

/-- What stands at a position in a block. -/
inductive Shows (code : List Instruction) (g : BlockGraph) (start : BlockId → Nat) (p : Nat) :
    Prop where
  /-- A command; the next position lies in a block too if control gets there. -/
  | command {a : Address} {c : Command} (hi : code[p]? = some (.command a c))
    (hnext : c.isReturn = false → p + 1 < code.length → Covers code g start (p + 1))
  /-- A condition, with blocks at the places where it leads. -/
  | condition {a t : Address} {clauses : List Clause} {m m' : BlockId}
    (hi : code[p]? = some (.condition a clauses (some t))) (hnext : m < g.size ∧ start m = p + 1)
    (hskip : m' < g.size ∧ code[start m']?.map Instruction.address = some t)
  /-- A goto, with a block at the place where it leads. -/
  | goto {a t : Address} {m : BlockId} (hi : code[p]? = some (.goto a t))
    (htarget : m < g.size ∧ code[start m]?.map Instruction.address = some t)

theorem Covers.shows (h : Outlines code g start) {p : Nat} (hp : Covers code g start p) :
    Shows code g start p := by
  obtain ⟨n, b, k, hb, rfl, hk, hend⟩ := hp
  have hat := h.block n b hb
  rcases Nat.eq_or_lt_of_le hk with rfl | hlt
  · obtain ⟨hlen, hunique, hlast⟩ := hend rfl
    cases hat.ends with
    | branch hcondition _ _ hnext hskip => exact .condition hcondition hnext hskip
    | goto hgoto _ htarget => exact .goto hgoto htarget
    | next hne _ hnext =>
      -- the block would start at its own end
      have hstart := hnext.2
      rw [hunique _ hnext.1 hnext.2] at hstart
      have hpos := List.length_pos_iff.2 hne
      omega
    | leave hne _ hleave =>
      rcases hleave with ⟨c, hc, hr⟩ | hfinish
      · rw [hlast c hc] at hr
        cases hr
      · omega
  · have hget := List.getElem?_eq_getElem hlt
    obtain ⟨a, hi⟩ := hat.stand k _ hget
    refine .command hi fun hr hq => ?_
    by_cases hstart : ∃ m < g.size, start m = start n + k + 1
    · obtain ⟨m, hm, hstart⟩ := hstart
      exact hstart ▸ h.covers_start hm
    · refine ⟨n, b, k + 1, hb, rfl, hlt, fun hk => ⟨hq, fun m hm he => ?_, fun c hc => ?_⟩⟩
      · exact absurd ⟨m, hm, he⟩ hstart
      · rw [List.getLast?_eq_getElem?, ← hk, Nat.add_sub_cancel, hget] at hc
        cases hc
        exact hr

theorem start_lt (h : Outlines code g start) {n : BlockId} (hn : n < g.size) :
    start n < code.length := by
  cases (h.covers_start hn).shows h with
  | command hi | condition hi | goto hi => exact (List.getElem?_eq_some_iff.1 hi).1

/-- Control that goes on from a position in a block comes to one. -/
theorem Covers.leads (h : Outlines code g start) (hn : (addresses code).Nodup) {p q : Nat}
    (hp : Covers code g start p) (hpq : Leads code p q) : Covers code g start q := by
  cases hp.shows h with
  | command hi hnext =>
    cases hpq with
    | next hi' hfalls hq =>
      rw [hi] at hi'
      cases hi'
      exact hnext (by simpa [Instruction.fallsThrough] using hfalls) hq
    | jump hi' ht =>
      rw [hi] at hi'
      cases hi'
      cases ht
  | condition hi hnext hskip =>
    cases hpq with
    | next => exact hnext.2 ▸ h.covers_start hnext.1
    | jump hi' ht hq =>
      rw [hi] at hi'
      cases hi'
      cases ht
      exact position_unique hn hskip.2 hq ▸ h.covers_start hskip.1
  | goto hi htarget =>
    cases hpq with
    | next hi' hfalls =>
      rw [hi] at hi'
      cases hi'
      cases hfalls
    | jump hi' ht hq =>
      rw [hi] at hi'
      cases hi'
      cases ht
      exact position_unique hn htarget.2 hq ▸ h.covers_start htarget.1

/-- **Every position that control can reach lies in a block.** -/
theorem covers (h : Outlines code g start) (hn : (addresses code).Nodup) {p : Nat}
    (hp : Reaches code p) : Covers code g start p := by
  obtain ⟨_, hpath⟩ := hp
  induction hpath with
  | refl => exact h.root.2 ▸ h.covers_start h.root.1
  | tail _ hlead ih => exact ih.leads h hn hlead

theorem not_endsInCondition (h : Outlines code g start) (hn : (addresses code).Nodup) :
    ¬EndsInCondition code := by
  rintro ⟨a, clauses, skip, hlast, hreach⟩
  rw [List.getLast?_eq_getElem?] at hlast
  cases (h.covers hn hreach).shows h with
  | command hi | goto hi =>
    rw [hlast] at hi
    cases hi
  | condition _ hnext =>
    have hlt := h.start_lt hnext.1
    omega

/-- A block that passes control on is a goto. -/
theorem hops_of_passes (h : Outlines code g start) {n m : BlockId} (hpass : Passes g n m) :
    m < g.size ∧ Hops code (start n) (start m) := by
  obtain ⟨b, hb, hnil, hexit⟩ := hpass
  have hends := (h.block n b hb).ends
  rw [hnil, List.length_nil, Nat.add_zero] at hends
  cases hends with
  | goto hgoto hexit' htarget =>
    rw [hexit] at hexit'
    cases hexit'
    exact ⟨htarget.1, _, _, hgoto, htarget.2⟩
  | branch _ hexit' =>
    rw [hexit] at hexit'
    cases hexit'
  | next hne | leave hne => exact absurd hnil hne

/-- A goto at the start of a block makes the block pass control on. -/
theorem passes_of_hops (h : Outlines code g start) (hn : (addresses code).Nodup) {n : BlockId}
    {q : Nat} (hlt : n < g.size) (hop : Hops code (start n) q) :
    ∃ m, Passes g n m ∧ start m = q := by
  obtain ⟨a, t, hgoto, hq⟩ := hop
  obtain ⟨b, hb⟩ := exists_block hlt
  have hat := h.block n b hb
  have hnil : b.commands = [] := by
    cases hc : b.commands with
    | nil => rfl
    | cons c rest =>
      obtain ⟨a', hi⟩ := hat.stand 0 c (by rw [hc]; rfl)
      rw [Nat.add_zero, hgoto] at hi
      cases hi
  have hends := hat.ends
  rw [hnil, List.length_nil, Nat.add_zero] at hends
  cases hends with
  | goto hgoto' hexit htarget =>
    rw [hgoto] at hgoto'
    cases hgoto'
    exact ⟨_, ⟨b, hb, hnil, hexit⟩, position_unique hn htarget.2 hq⟩
  | branch hcondition =>
    rw [hgoto] at hcondition
    cases hcondition
  | next hne | leave hne => exact absurd hnil hne

theorem passes_of_transGen_hops (h : Outlines code g start) (hn : (addresses code).Nodup)
    {n : BlockId} {q : Nat} (hlt : n < g.size) (hops : Relation.TransGen (Hops code) (start n) q) :
    ∃ m < g.size, start m = q ∧ Relation.TransGen (Passes g) n m := by
  induction hops with
  | single hop =>
    obtain ⟨m, hpass, hm⟩ := h.passes_of_hops hn hlt hop
    exact ⟨m, (h.hops_of_passes hpass).1, hm, .single hpass⟩
  | tail _ hop ih =>
    obtain ⟨m, hm, rfl, hpasses⟩ := ih
    obtain ⟨m', hpass, hm'⟩ := h.passes_of_hops hn hm hop
    exact ⟨m', (h.hops_of_passes hpass).1, hm', hpasses.tail hpass⟩

theorem transGen_hops (h : Outlines code g start) {n m : BlockId}
    (hpasses : Relation.TransGen (Passes g) n m) :
    Relation.TransGen (Hops code) (start n) (start m) :=
  hpasses.lift start fun _ _ hpass => (h.hops_of_passes hpass).2

/-- **Gotos that lead round in a circle are blocks that do.** The place where a goto that control
can reach leads is the start of a block. -/
theorem gotoCycle_iff (h : Outlines code g start) (hn : (addresses code).Nodup)
    (hreach : ∀ n < g.size, Reaches code (start n)) :
    GotoCycle code ↔ ∃ n < g.size, Relation.TransGen (Passes g) n n := by
  constructor
  · rintro ⟨p, hp, hcycle⟩
    obtain ⟨q, hpq, a, t, hgoto, ht⟩ := Relation.TransGen.tail'_iff.1 hcycle
    cases (h.covers hn (hp.hops hpq)).shows h with
    | goto hi htarget =>
      rw [hgoto] at hi
      cases hi
      obtain rfl := position_unique hn htarget.2 ht
      obtain ⟨m, hm, hstart, hpasses⟩ := h.passes_of_transGen_hops hn htarget.1 hcycle
      obtain rfl := h.injective _ hm _ htarget.1 hstart
      exact ⟨m, hm, hpasses⟩
    | command hi | condition hi =>
      rw [hgoto] at hi
      cases hi
  · rintro ⟨n, hlt, hcycle⟩
    exact ⟨start n, hreach n hlt, h.transGen_hops hcycle⟩

end Outlines

/-- Control can reach the start of every block. -/
theorem exists_reached_outlines {code : List Instruction} {labels : LabelTable} {g : BlockGraph}
    (hn : (addresses code).Nodup) (h : (ofInstructions code labels).result = .ok g) :
    ∃ start, Outlines code g start ∧ ∀ n < g.size, Reaches code (start n) := by
  obtain ⟨hne, marked, spans, hmarked, hspans, rfl⟩ := ofInstructions_eq_ok_iff.1 h
  have hlinked := Code.exists_ofInstructions_iff.1 ⟨marked, hmarked⟩
  obtain ⟨hproper, rfl⟩ := proper_ofInstructions hn hmarked
  refine ⟨_, outlines_openBranches labels hproper hne hspans, fun n hlt => ?_⟩
  rw [size_openBranches, size_ofSpans] at hlt
  rw [startOf_eq (List.getElem?_eq_getElem hlt)]
  exact (Code.reaches_discover hproper hlinked hne).1 spans hspans _ (List.getElem_mem hlt)

/-- **The block graph of some code exists exactly if** there is code, every jump leads to an
instruction, and control cannot come to a condition at the end of the code. -/
theorem exists_ofInstructions_iff {code : List Instruction} {labels : LabelTable}
    (hn : (addresses code).Nodup) (hskip : ∀ i ∈ code, ∀ a clauses, i ≠ .condition a clauses none) :
    (∃ g, (ofInstructions code labels).result = .ok g) ↔
      code ≠ [] ∧ ¬Dangling code ∧ ¬EndsInCondition code := by
  constructor
  · rintro ⟨g, h⟩
    obtain ⟨⟨start, hout⟩, _⟩ := exists_outlines hn h
    obtain ⟨hne, marked, _, hmarked, _⟩ := ofInstructions_eq_ok_iff.1 h
    refine ⟨hne, ?_, hout.not_endsInCondition hn⟩
    rintro ⟨i, hi, t, ht, hmem⟩
    exact hmem ((Code.exists_ofInstructions_iff.1 ⟨marked, hmarked⟩).target_mem i hi t ht)
  · rintro ⟨hne, hdangling, hends⟩
    have hlinked : Code.Linked code :=
      ⟨fun i hi t ht => Classical.byContradiction fun hmem => hdangling ⟨i, hi, t, ht, hmem⟩, hskip⟩
    obtain ⟨marked, hmarked⟩ := Code.exists_ofInstructions_iff.2 hlinked
    obtain ⟨hproper, rfl⟩ := proper_ofInstructions hn hmarked
    cases hspans : marked.discover with
    | ok spans => exact ⟨_, ofInstructions_eq_ok_iff.2 ⟨hne, marked, spans, hmarked, hspans, rfl⟩⟩
    | error e => exact absurd ((Code.reaches_discover hproper hlinked hne).2 e hspans) hends

end BlockGraph
end AdventureLogic
