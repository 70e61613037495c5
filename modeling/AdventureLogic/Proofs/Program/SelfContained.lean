import AdventureLogic.Proofs.Program.Sound

/-!
# Making a condition self-contained changes no run

A crossing condition is sent to a goto that is put in at the end of the region
around it. The code before that point and the code after it stay as they are, up
to the skip target of the condition. Control does not run into the new goto from
above: the instruction before it does not fall through, or a bypass is put in
between. So control stands at the same place in both, except on the detour, one
goto away from it.

Key definitions: `Program.Detour`, `Program.Detour.Valid`. Key theorem:
`Program.equivalent_selfContain`.
-/

namespace AdventureLogic
namespace Program

/-- A condition gets a detour: the code around the place where it is put in, what is put in before
the goto, and the addresses of the condition, of its target and of the goto. -/
structure Detour where
  above : List Instruction
  bypass : List Instruction
  below : List Instruction
  source : Address
  target : Address
  via : Address

/-- Instructions that lead past the new goto: a goto to what follows, or a return at the end of the
code. -/
inductive Bypass (below bypass : List Instruction) : Prop where
  | goto (a : Address) (next : Instruction) (rest : List Instruction) (hbelow : below = next :: rest)
    (h : bypass = [.goto a next.address])
  | ret (a : Address) (hbelow : below = []) (h : bypass = [.command a Command.ret])

namespace Detour

variable (d : Detour)

/-- The code without the detour. -/
def before : List Instruction := d.above ++ d.below

/-- Sends the condition to the goto. -/
def reroute (i : Instruction) : Instruction := if i.address = d.source then i.retarget d.via else i

/-- What is put in. -/
def inserted : List Instruction := d.bypass ++ [.goto d.via d.target]

/-- The code with the detour. -/
def after : List Instruction := d.above.map d.reroute ++ (d.inserted ++ d.below)

/-- What makes a detour one of a condition in the code before it. -/
structure Valid : Prop where
  closed : Closed d.before
  source_mem : ∃ clauses, .condition d.source clauses (some d.target) ∈ d.above
  /-- Control that could run into the goto is led past it. -/
  bypass : Bypass d.below d.bypass ∨
    d.bypass = [] ∧ ∀ i ∈ d.above.getLast?, i.fallsThrough = false
  fresh : ∀ a ∈ addresses d.inserted, a ∉ addresses d.before
  nodup : (addresses d.inserted).Nodup

@[simp] theorem address_reroute (i : Instruction) : (d.reroute i).address = i.address := by
  unfold reroute
  split <;> simp

theorem addresses_map_reroute (code : List Instruction) :
    addresses (code.map d.reroute) = addresses code := by
  rw [addresses, List.map_map]
  exact List.map_congr_left fun i _ => d.address_reroute i

theorem codeFrom_map_reroute (code : List Instruction) (a : Address) :
    codeFrom (code.map d.reroute) a = (codeFrom code a).map d.reroute := by
  induction code with
  | nil => rfl
  | cons i rest ih =>
    rw [List.map_cons]
    by_cases h : i.address = a
    · subst h
      rw [codeFrom_cons_self, ← d.address_reroute i, codeFrom_cons_self, List.map_cons]
    · rw [codeFrom_cons_of_ne h, codeFrom_cons_of_ne (by simpa using h), ih]

theorem perm_addresses_after :
    (addresses d.after).Perm (addresses d.inserted ++ addresses d.before) := by
  rw [after, before]
  simp only [addresses, List.map_append]
  rw [← addresses, d.addresses_map_reroute]
  exact List.perm_append_comm_assoc _ _ _

variable {d}

theorem Valid.nodup_after (h : d.Valid) : (addresses d.after).Nodup := by
  rw [d.perm_addresses_after.nodup_iff, List.nodup_append]
  exact ⟨h.nodup, h.closed.nodup, fun a ha b hb e => h.fresh a ha (e ▸ hb)⟩

/-- Where control stands in the code before and after the change. -/
inductive Leads (d : Detour) : Nat → List Instruction → List Instruction → Prop where
  /-- Above the place of the change; at its end only if a bypass follows. -/
  | above {s : List Instruction} (hs : s <:+ d.above) (hb : s = [] → Bypass d.below d.bypass) :
    Leads d 1 (s ++ d.below) (s.map d.reroute ++ (d.inserted ++ d.below))
  /-- Below it. -/
  | below {s : List Instruction} (hs : s <:+ d.below) : Leads d 0 s s
  /-- On the detour. -/
  | via : Leads d 2 (codeFrom d.before d.target) (.goto d.via d.target :: d.below)

theorem Valid.source_unique (h : d.Valid) {i : Instruction} (hi : i ∈ d.before)
    (ha : i.address = d.source) :
    ∃ clauses, i = .condition d.source clauses (some d.target) := by
  obtain ⟨clauses, hmem⟩ := h.source_mem
  exact ⟨clauses, List.inj_on_of_nodup_map h.closed.nodup hi (List.mem_append_left _ hmem) ha⟩

/-- A jump leads to the same place as before. -/
theorem Valid.leads_codeFrom (h : d.Valid) {t : Address} (ht : t ∈ addresses d.before) :
    ∃ k < 2, d.Leads k (codeFrom d.before t) (codeFrom d.after t) := by
  by_cases habove : t ∈ addresses d.above
  · refine ⟨1, by omega, ?_⟩
    have hmap : t ∈ addresses (d.above.map d.reroute) := by rwa [addresses_map_reroute]
    rw [before, after, codeFrom_append_of_mem habove, codeFrom_append_of_mem hmap,
      codeFrom_map_reroute]
    refine .above (List.dropWhile_suffix _) fun hnil => ?_
    obtain ⟨i, rest, heq, _⟩ := codeFrom_eq_cons habove
    rw [heq] at hnil
    cases hnil
  · refine ⟨0, by omega, ?_⟩
    have hmap : t ∉ addresses (d.above.map d.reroute) := by rwa [addresses_map_reroute]
    rw [before, after, codeFrom_append habove, codeFrom_append hmap,
      codeFrom_append fun hm => h.fresh t hm ht]
    exact .below (List.dropWhile_suffix _)

theorem Valid.codeFrom_via (h : d.Valid) :
    codeFrom d.after d.via = .goto d.via d.target :: d.below := by
  have hvia : d.via ∈ addresses d.inserted :=
    List.mem_map_of_mem (f := Instruction.address) (List.mem_append_right _ List.mem_cons_self)
  have hmap : d.via ∉ addresses (d.above.map d.reroute) := by
    rw [addresses_map_reroute]
    intro hm
    exact h.fresh _ hvia (by rw [before, addresses, List.map_append]; exact List.mem_append_left _ hm)
  have hbypass : d.via ∉ addresses d.bypass := by
    have := h.nodup
    rw [inserted, addresses, List.map_append, List.nodup_append] at this
    intro hm
    exact this.2.2 _ hm _ List.mem_cons_self rfl
  rw [after, codeFrom_append hmap, inserted, List.append_assoc, codeFrom_append hbypass]
  exact codeFrom_cons_self (.goto d.via d.target) d.below

theorem Valid.codeFrom_next (h : d.Valid) {next : Instruction} {rest : List Instruction}
    (hbelow : d.below = next :: rest) : codeFrom d.after next.address = d.below := by
  have hn := h.closed.nodup
  have hmem : next.address ∈ addresses d.before := by
    rw [before, hbelow]
    exact List.mem_map_of_mem (List.mem_append_right _ List.mem_cons_self)
  have habove : next.address ∉ addresses (d.above.map d.reroute) := by
    rw [addresses_map_reroute]
    rw [before, hbelow, addresses, List.map_append, List.nodup_append] at hn
    exact fun hm => hn.2.2 _ hm _ List.mem_cons_self rfl
  rw [after, codeFrom_append habove, codeFrom_append fun hm => h.fresh _ hm hmem, hbelow,
    codeFrom_cons_self]

/-- In both codes the next moves match. -/
theorem Valid.matched (h : d.Valid) {k : Nat} {s s' : List Instruction} (hl : d.Leads k s s') :
    (Machine.ofCode d.before).Matched (Machine.ofCode d.after) d.Leads k s s' := by
  have hjump : ∀ {i : Instruction}, i ∈ d.before → ∀ t, i.target? = some t →
      ∃ k, d.Leads k (codeFrom d.before t) (codeFrom d.after t) := by
    intro i hi t ht
    obtain ⟨k, _, hk⟩ := h.leads_codeFrom (h.closed.target_mem i hi t ht)
    exact ⟨k, hk⟩
  have hnil : ∃ k, d.Leads k [] [] := ⟨0, .below List.nil_suffix⟩
  cases hl with
  | via =>
    obtain ⟨clauses, hmem⟩ := h.source_mem
    have ht := h.closed.target_mem _ (List.mem_append_left _ hmem) d.target rfl
    obtain ⟨k, hk, hl⟩ := h.leads_codeFrom ht
    exact .right rfl hl hk
  | below hs =>
    cases s with
    | nil => exact .both .halt
    | cons i rest =>
      have hrest : ∃ k, d.Leads k rest rest := ⟨0, .below ((List.suffix_cons i rest).trans hs)⟩
      have hjump := hjump (List.mem_append_right _ (hs.subset List.mem_cons_self))
      exact .both (Machine.related_instruction i (fun _ => hrest) hjump hnil)
  | @above s hs hb =>
    cases s with
    | nil =>
      -- Control has run down to the place of the change: the bypass leads it on.
      rcases hb rfl with ⟨a, next, rest, hbelow, hbypass⟩ | ⟨a, hbelow, hbypass⟩
      · have hnext := h.codeFrom_next hbelow
        rw [inserted, hbypass]
        refine .right rfl ?_ Nat.one_pos
        rw [hnext]
        exact .below (List.suffix_refl _)
      · rw [inserted, hbypass, hbelow]
        exact .both .halt
    | cons i rest =>
      have hi : i ∈ d.before := List.mem_append_left _ (hs.subset List.mem_cons_self)
      have hrest : i.fallsThrough = true →
          ∃ k, d.Leads k (rest ++ d.below) (rest.map d.reroute ++ (d.inserted ++ d.below)) := by
        intro hf
        refine ⟨1, .above ((List.suffix_cons i rest).trans hs) ?_⟩
        rintro rfl
        refine h.bypass.resolve_right fun hlast => ?_
        obtain ⟨pre, hpre⟩ := hs
        have := hlast.2 i (by rw [← hpre]; simp)
        rw [hf] at this
        cases this
      refine .both ?_
      by_cases ha : i.address = d.source
      · obtain ⟨clauses, rfl⟩ := h.source_unique hi ha
        have hvia : d.reroute (.condition d.source clauses (some d.target)) =
            .condition d.source clauses (some d.via) := if_pos rfl
        rw [List.map_cons, hvia]
        refine Machine.related_condition _ _ clauses (hrest rfl) ⟨2, ?_⟩
        rw [h.codeFrom_via]
        exact .via
      · have hsame : d.reroute i = i := if_neg ha
        rw [List.map_cons, hsame]
        exact Machine.related_instruction i hrest (hjump hi) hnil

/-- A detour changes no run. -/
theorem Valid.equivalent (h : d.Valid) :
    (Machine.ofCode d.before).Equivalent (Machine.ofCode d.after) := by
  obtain ⟨clauses, hmem⟩ := h.source_mem
  refine Machine.equivalent_of_matched d.Leads (k := 1) ?_ fun _ _ _ hl => h.matched hl
  refine .above (List.suffix_refl _) fun hnil => ?_
  rw [hnil] at hmem
  cases hmem

end Detour

/-- The innermost region that is open at a position ends after it and inside the code. -/
theorem headD_dropWhile_regions {regions : List Nat} {position size : Nat}
    (hregions : ∀ r ∈ regions, r ≤ size) (hposition : position < size) :
    position < (regions.dropWhile (· ≤ position)).headD size ∧
      (regions.dropWhile (· ≤ position)).headD size ≤ size := by
  induction regions with
  | nil => exact ⟨hposition, Nat.le_refl _⟩
  | cons r rest ih =>
    rw [List.dropWhile_cons]
    split
    · exact ih fun r' hr' => hregions r' (List.mem_cons_of_mem _ hr')
    · rename_i hr
      exact ⟨by simpa using hr, hregions r List.mem_cons_self⟩

/-- A crossing is a condition of the code before the end of the region around it. -/
theorem crossingFrom_eq_some {positions : NatMap Nat} {size : Nat} {c : Crossing}
    (code : List Instruction) : ∀ {regions : List Nat} {position : Nat},
    (∀ r ∈ regions, r ≤ size) → position + code.length = size →
    crossingFrom positions size regions position code = .ok (some c) →
      position ≤ c.position ∧ c.position < c.limit ∧ c.limit ≤ size ∧
        ∃ clauses, code[c.position - position]? = some (.condition c.address clauses (some c.target))
    := by
  induction code with
  | nil =>
    intro regions position _ _ h
    cases h
  | cons i rest ih =>
    intro regions position hregions hlen h
    have hopen : ∀ r ∈ regions.dropWhile (· ≤ position), r ≤ size :=
      fun r hr => hregions r ((List.dropWhile_suffix _).subset hr)
    have hlen' : position + 1 + rest.length = size := by
      rw [← hlen, List.length_cons]
      omega
    have hrest : ∀ {regions' : List Nat}, (∀ r ∈ regions', r ≤ size) →
        crossingFrom positions size regions' (position + 1) rest = .ok (some c) →
          position ≤ c.position ∧ c.position < c.limit ∧ c.limit ≤ size ∧ ∃ clauses,
            (i :: rest)[c.position - position]? =
              some (.condition c.address clauses (some c.target)) := by
      intro regions' hregions' h
      obtain ⟨hle, hlt, hlimit, clauses, hget⟩ := ih hregions' hlen' h
      refine ⟨by omega, hlt, hlimit, clauses, ?_⟩
      rw [show c.position - position = c.position - (position + 1) + 1 by omega]
      exact hget
    unfold crossingFrom at h
    dsimp only at h
    split at h
    · rename_i a clauses t
      split at h
      · cases h
      · rename_i s _
        obtain ⟨hafter, hlimit⟩ := headD_dropWhile_regions hregions (by omega : position < size)
        split at h
        · rename_i hs
          refine hrest ?_ h
          intro r hr
          rcases List.mem_cons.1 hr with rfl | hr
          · exact Nat.le_trans hs.2 hlimit
          · exact hopen r hr
        · cases h
          exact ⟨Nat.le_refl _, hafter, hlimit, clauses, by simp⟩
    · exact hrest hopen h

/-- Changing the instruction at a position is changing the one with its address. -/
theorem modify_eq_map {code : List Instruction} {n : Nat} {i : Instruction}
    (hn : (addresses code).Nodup) (hi : code[n]? = some i) (f : Instruction → Instruction) :
    code.modify n f = code.map fun j => if j.address = i.address then f j else j := by
  induction code generalizing n with
  | nil => cases hi
  | cons j rest ih =>
    rw [addresses, List.map_cons, List.nodup_cons] at hn
    cases n with
    | zero =>
      cases hi
      rw [List.modify_zero_cons, List.map_cons, if_pos rfl, List.cons_inj_right]
      conv_lhs => rw [← List.map_id rest]
      refine List.map_congr_left fun k hk => ?_
      rw [if_neg, id]
      exact fun e => hn.1 (e ▸ List.mem_map_of_mem hk)
    | succ n =>
      have hmem : i ∈ rest := List.mem_of_getElem? hi
      have hne : j.address ≠ i.address := fun e => hn.1 (e ▸ List.mem_map_of_mem hmem)
      rw [List.modify_succ_cons, List.map_cons, if_neg hne, ih hn.2 hi]

/-- Control runs into the end of some code if its last instruction falls through. -/
theorem fallsInto_append (pre post : List Instruction) :
    fallsInto (pre ++ post) pre.length = pre.getLast?.any Instruction.fallsThrough := by
  rw [fallsInto]
  rcases List.eq_nil_or_concat pre with rfl | ⟨front, i, rfl⟩
  · rfl
  · simp

/-- What a bridge puts in. -/
theorem bridge_eq_ok {p : Program} {pre post : List Instruction} {n : Nat}
    (hcode : p.code = pre ++ post) (h : (p.bridge pre.length).result = .ok n) :
    ∃ bypass, (p.bridge pre.length).program.code = pre ++ (bypass ++ post) ∧
      n = pre.length + bypass.length ∧
      (Bypass post bypass ∨ bypass = [] ∧ ∀ i ∈ pre.getLast?, i.fallsThrough = false) ∧
      (addresses bypass).Nodup ∧ (∀ a ∈ addresses bypass, p.pool.isUsed a = false) ∧
      ∀ a, (p.bridge pre.length).program.pool.isUsed a ↔
        a ∈ addresses bypass ∨ p.pool.isUsed a := by
  unfold bridge at h ⊢
  rw [hcode, fallsInto_append] at h ⊢
  by_cases hf : pre.getLast?.any Instruction.fallsThrough = true
  · rw [if_pos hf] at h ⊢
    cases hfresh : p.pool.fresh with
    | error e =>
      rw [hfresh] at h
      cases h
    | ok r =>
      obtain ⟨a, pool⟩ := r
      obtain ⟨hfree, hused⟩ := AddressPool.isUsed_of_fresh hfresh
      rw [hfresh] at h
      cases h
      rw [List.getElem?_append_right (Nat.le_refl _), Nat.sub_self]
      have hinsert : ∀ x : Instruction, (pre ++ post).insertIdx pre.length x = pre ++ x :: post :=
        fun x => List.modifyTailIdx_add (List.cons x) 0 pre post
      cases post with
      | nil =>
        refine ⟨[.command a Command.ret], hinsert _, rfl, .inl (.ret a rfl rfl), by simp [addresses],
          ?_, ?_⟩
        · intro b hb
          rcases List.mem_singleton.1 hb with rfl
          exact hfree
        · exact fun b => (hused b).trans (or_congr_left (List.mem_singleton (a := b)).symm)
      | cons next rest =>
        refine ⟨[.goto a next.address], hinsert _, rfl, .inl (.goto a next rest rfl rfl),
          by simp [addresses], ?_, ?_⟩
        · intro b hb
          rcases List.mem_singleton.1 hb with rfl
          exact hfree
        · exact fun b => (hused b).trans (or_congr_left (List.mem_singleton (a := b)).symm)
  · rw [if_neg hf] at h ⊢
    cases h
    refine ⟨[], hcode, rfl, .inr ⟨rfl, ?_⟩, by simp [addresses], by simp [addresses], by
      simp [addresses]⟩
    intro i hi
    rw [Option.mem_def.1 hi] at hf
    simpa using hf

/-- Sending on the one instruction at a position above the change gives the code with the detour. -/
theorem Detour.Valid.modify_eq_after {d : Detour} (h : d.Valid) {n : Nat} {i : Instruction}
    (hi : d.above[n]? = some i) (ha : i.address = d.source) :
    (d.above ++ (d.inserted ++ d.below)).modify n (·.retarget d.via) = d.after := by
  have hnodup : (addresses (d.above ++ (d.inserted ++ d.below))).Nodup := by
    have hperm : (addresses (d.above ++ (d.inserted ++ d.below))).Perm
        (addresses d.inserted ++ addresses d.before) := by
      simp only [addresses, Detour.before, List.map_append]
      exact (List.perm_append_comm_assoc _ _ _)
    rw [hperm.nodup_iff, List.nodup_append]
    exact ⟨h.nodup, h.closed.nodup, fun a ha b hb e => h.fresh a ha (e ▸ hb)⟩
  have hget : (d.above ++ (d.inserted ++ d.below))[n]? = some i := by
    rw [List.getElem?_append_left (List.getElem?_eq_some_iff.1 hi).1, hi]
  have hsame : ∀ j ∈ d.inserted ++ d.below, d.reroute j = j := by
    intro j hj
    refine if_neg fun e => ?_
    have hnew : j.address ∈ addresses (d.inserted ++ d.below) := List.mem_map_of_mem hj
    have hold : d.source ∈ addresses d.above := ha ▸ List.mem_map_of_mem (List.mem_of_getElem? hi)
    rw [addresses, List.map_append, List.nodup_append] at hnodup
    exact hnodup.2.2 _ hold _ hnew e.symm
  rw [modify_eq_map hnodup hget, ha, List.map_append, Detour.after]
  congr 1
  exact (List.map_congr_left hsame).trans (List.map_id _)

/-- What happens when a condition is made self-contained: a crossing is found, the goto gets its
place and an address, and the condition is sent to it. -/
theorem selfContain_eq_ok_true {p : Program} (h : p.selfContain.result = .ok true) :
    ∃ c n a pool, p.crossing? = .ok (some c) ∧ (p.bridge c.limit).result = .ok n ∧
      (p.bridge c.limit).program.pool.fresh = .ok (a, pool) ∧
      p.selfContain.program =
        { (p.bridge c.limit).program with
          code := ((p.bridge c.limit).program.code.insertIdx n (.goto a c.target)).modify c.position
            (·.retarget a)
          pool := pool } := by
  unfold selfContain at h ⊢
  cases hc : p.crossing? with
  | error e =>
    rw [hc] at h
    cases h
  | ok found =>
    rw [hc] at h
    cases found with
    | none => cases h
    | some c =>
      dsimp only [Outcome.andThen] at h ⊢
      cases hb : (p.bridge c.limit).result with
      | error e =>
        rw [hb] at h
        cases h
      | ok n =>
        rw [hb] at h
        dsimp only [Outcome.after] at h ⊢
        unfold detour at h ⊢
        cases hf : (p.bridge c.limit).program.pool.fresh with
        | error e =>
          rw [hf] at h
          cases h
        | ok r => exact ⟨c, n, r.1, r.2, rfl, hb, hf, rfl⟩

/-- A change that makes a condition self-contained is a detour of the crossing that is found: what
is put in stands at the end of the region around the condition, and its addresses are taken. -/
theorem exists_detour {p : Program} (hp : p.Sound) (h : p.selfContain.result = .ok true) :
    ∃ d : Detour, d.Valid ∧ p.code = d.before ∧ p.selfContain.program.code = d.after ∧
      (∀ a, p.selfContain.program.pool.isUsed a ↔ a ∈ addresses d.inserted ∨ p.pool.isUsed a) ∧
      ∃ c clauses, p.crossing? = .ok (some c) ∧ d.above.length = c.limit ∧
        d.above[c.position]? = some (.condition d.source clauses (some d.target)) := by
  obtain ⟨c, n, a, pool, hc, hb, hf, hprogram⟩ := selfContain_eq_ok_true h
  obtain ⟨_, hlt, hle, clauses, hget⟩ := crossingFrom_eq_some p.code (by simp) (Nat.zero_add _) hc
  have hcode : p.code = p.code.take c.limit ++ p.code.drop c.limit :=
    (List.take_append_drop _ _).symm
  have hlen : (p.code.take c.limit).length = c.limit := List.length_take_of_le hle
  have hcond : (p.code.take c.limit)[c.position]? =
      some (.condition c.address clauses (some c.target)) := by
    rw [List.getElem?_take_of_lt hlt]
    exact hget
  generalize p.code.take c.limit = above at hcode hlen hcond
  generalize p.code.drop c.limit = below at hcode
  rw [← hlen] at hb hf hprogram
  obtain ⟨bypass, hbcode, rfl, hbypass, hbnodup, hbfree, hbused⟩ := bridge_eq_ok hcode hb
  obtain ⟨hfree, hused⟩ := AddressPool.isUsed_of_fresh hf
  rw [← Bool.not_eq_true, hbused, not_or] at hfree
  have hinserted : addresses (bypass ++ [.goto a c.target]) = addresses bypass ++ [a] := by
    simp [addresses, Instruction.address]
  have hvalid : Detour.Valid ⟨above, bypass, below, c.address, c.target, a⟩ := by
    refine ⟨?_, ⟨clauses, List.mem_of_getElem? hcond⟩, hbypass, ?_, ?_⟩
    · rw [Detour.before, ← hcode]
      exact hp.closed
    · intro b hb hmem
      have hbu : p.pool.isUsed b = true := hp.used b (by rw [hcode]; exact hmem)
      rw [Detour.inserted, hinserted] at hb
      rcases List.mem_append.1 hb with hb | hb
      · rw [hbfree b hb] at hbu
        cases hbu
      · rw [List.mem_singleton.1 hb] at hbu
        exact hfree.2 hbu
    · rw [Detour.inserted, hinserted, List.nodup_append]
      refine ⟨hbnodup, List.nodup_singleton a, ?_⟩
      rintro b hb _ hb' rfl
      exact hfree.1 (List.mem_singleton.1 hb' ▸ hb)
  refine ⟨_, hvalid, hcode, ?_, fun b => ?_, c, clauses, hc, hlen, hcond⟩
  · have hinsert : (above ++ (bypass ++ below)).insertIdx (above.length + bypass.length)
        (.goto a c.target) = above ++ (bypass ++ [.goto a c.target] ++ below) := by
      rw [← List.append_assoc, ← List.length_append, List.append_assoc bypass, ← List.append_assoc]
      exact List.modifyTailIdx_add (List.cons _) 0 (above ++ bypass) below
    rw [hprogram]
    dsimp only
    rw [hbcode, hinsert]
    exact hvalid.modify_eq_after hcond rfl
  · rw [hprogram, Detour.inserted, hinserted, List.mem_append, List.mem_singleton]
    rw [hused, hbused, or_left_comm, or_assoc]

/-- **Making a condition self-contained changes no run.** -/
theorem equivalent_selfContain {p : Program} (hp : p.Sound)
    (h : p.selfContain.result = .ok true) :
    (Machine.ofCode p.code).Equivalent (Machine.ofCode p.selfContain.program.code) := by
  obtain ⟨d, hd, hbefore, hafter, _⟩ := exists_detour hp h
  rw [hbefore, hafter]
  exact hd.equivalent

end Program
end AdventureLogic
