import AdventureLogic.Proofs.Program.Normalize

/-!
# Passes keep jumps inside the code

A pass drops instructions that are the targets of jumps only together with those
jumps, or it sends the jumps on. Unreachable instructions have no label, so no
jump leads to them. A jump to a redundant goto is sent on to an instruction that
stays: through gotos that only lead on, or back to the goto that it repeats
(`Program.SentTo`). A detour leads to where the condition led before.

Key definitions: `Program.rank`, `Program.SentTo`. Key theorems:
`Program.exists_sentTo`, `Program.closed_tidy`, `Pass.closed_run`.
-/

namespace AdventureLogic
namespace Program

/-! ## Unreachable instructions -/

/-- An instruction with a label is kept. -/
theorem mem_addresses_reachable {labels : LabelTable} {a : Address}
    (hl : labels.contains a = true) : ∀ (afterGoto : Bool) {code : List Instruction},
    a ∈ addresses code → a ∈ addresses (reachable labels afterGoto code)
  | _, [], ha => ha
  | afterGoto, i :: rest, ha => by
    rw [reachable_cons]
    rcases List.mem_cons.1 ha with rfl | ha
    · rw [if_pos (by simp [hl])]
      exact List.mem_cons_self
    · have ih := mem_addresses_reachable hl i.isGoto ha
      split
      · exact List.mem_cons_of_mem _ ih
      · exact ih

theorem closed_dropUnreachable {p : Program} (hp : p.Sound) :
    Closed p.dropUnreachable.program.code := by
  have hsub := reachable_sublist p.labels false p.code
  rw [code_dropUnreachable]
  refine ⟨hp.closed.nodup.sublist (hsub.map _), fun i hi t ht => ?_⟩
  have hmem : i ∈ p.code := hsub.subset hi
  have hlabel := (hp.labelled t).2 (List.mem_map.2 ⟨i, hmem, ht⟩)
  exact mem_addresses_reachable hlabel false (hp.closed.target_mem i hmem t ht)

/-! ## Redundant gotos -/

/-- How many instructions before a position are kept: where the position is in what is left. -/
def rank (judged : List (Instruction × Verdict)) (n : Nat) : Nat :=
  (judged.take n).countP fun e => e.2 = .keep

section Rank

variable {judged : List (Instruction × Verdict)} {m n : Nat}

theorem rank_mono (h : m ≤ n) : rank judged m ≤ rank judged n :=
  ((List.take_prefix_take_left h).sublist).countP_le

theorem rank_succ {e : Instruction × Verdict} (he : judged[n]? = some e) :
    rank judged (n + 1) = rank judged n + if e.2 = .keep then 1 else 0 := by
  rw [rank, rank, List.take_add_one, he, List.countP_append]
  split
  · rename_i h
    simp [h]
  · rename_i h
    simp [h]

/-- A kept instruction has fewer kept ones before it than what comes after it. -/
theorem rank_lt {i : Instruction} (hi : judged[m]? = some (i, .keep)) (h : m < n) :
    rank judged m < rank judged n := by
  have hle : rank judged (m + 1) ≤ rank judged n := rank_mono (Nat.succ_le_of_lt h)
  rw [rank_succ hi, if_pos rfl] at hle
  omega

/-- A kept instruction stands at its rank. -/
theorem getElem?_rank {i : Instruction} (hi : judged[n]? = some (i, .keep)) :
    ((judged.filter fun e => e.2 = .keep).map Prod.fst)[rank judged n]? = some i := by
  obtain ⟨hlt, hget⟩ := List.getElem?_eq_some_iff.1 hi
  have hsplit : judged = judged.take n ++ (i, .keep) :: judged.drop (n + 1) := by
    rw [← hget, ← List.drop_eq_getElem_cons hlt, List.take_append_drop]
  have hfilter : judged.filter (fun e => e.2 = .keep) =
      (judged.take n).filter (fun e => e.2 = .keep) ++
        (i, .keep) :: (judged.drop (n + 1)).filter fun e => e.2 = .keep := by
    conv_lhs => rw [hsplit, List.filter_append, List.filter_cons_of_pos (by simp)]
  rw [rank, List.countP_eq_length_filter, hfilter, List.map_append,
    List.getElem?_append_right (by simp)]
  simp

/-- What is left stands at the ranks of kept instructions. -/
theorem exists_rank : ∀ {judged : List (Instruction × Verdict)} {q : Nat} {i : Instruction},
    ((judged.filter fun e => e.2 = .keep).map Prod.fst)[q]? = some i →
      ∃ n, judged[n]? = some (i, .keep) ∧ rank judged n = q
  | [], q, i, h => by cases h
  | (j, v) :: rest, q, i, h => by
    by_cases hv : v = .keep
    · subst hv
      rw [List.filter_cons_of_pos (by simp), List.map_cons] at h
      cases q with
      | zero =>
        cases h
        exact ⟨0, rfl, rfl⟩
      | succ q =>
        obtain ⟨n, hn, hq⟩ := exists_rank (q := q) h
        refine ⟨n + 1, hn, ?_⟩
        rw [← hq, rank, rank, List.take_succ_cons, List.countP_cons_of_pos (by simp)]
    · rw [List.filter_cons_of_neg (by simpa using hv)] at h
      obtain ⟨n, hn, hq⟩ := exists_rank h
      refine ⟨n + 1, hn, ?_⟩
      rw [← hq, rank, rank, List.take_succ_cons, List.countP_cons_of_neg (by simpa using hv)]

end Rank

/-- Jumps to the instruction at position `s` are sent to the kept instruction `j` at position `k`:
all that stands between them is dropped, or `j` is the goto right before `s`. -/
structure SentTo (judged : List (Instruction × Verdict)) (s k : Nat) (j : Instruction) : Prop where
  kept : judged[k]? = some (j, .keep)
  near : s ≤ k ∧ rank judged k = rank judged s ∨ k + 1 = s ∧ j.isGoto = true

section Redirections

variable {code : List Instruction}

/-- The verdict on the instruction at a place, by position. -/
theorem Split.getElem? {front : List (Instruction × Verdict)} {previous : Option Address}
    {kept : Option Instruction} {i : Instruction} {rest : List Instruction}
    (h : Split code front previous kept (i :: rest)) :
    (judge none none code)[front.length]? =
      some (i, verdict previous kept (rest.head?.map Instruction.address) i) := by
  rw [h.judge_eq, List.getElem?_append_right (Nat.le_refl _), Nat.sub_self]
  rfl

/-- Before a goto that repeats another stands that other one. -/
theorem Split.getElem?_previous (hn : (addresses code).Nodup)
    {front : List (Instruction × Verdict)} {kept : Option Instruction} {s : List Instruction}
    {k t : Address} (h : Split code front (some k) kept s) (hk : kept = some (.goto k t)) :
    ∃ n, n + 1 = front.length ∧ (judge none none code)[n]? = some (.goto k t, .keep) := by
  obtain ⟨x, hx, hxk⟩ := Option.map_eq_some_iff.1 h.previous_eq.symm
  rcases List.eq_nil_or_concat front with rfl | ⟨before, e, rfl⟩
  · cases hx
  · rw [List.concat_eq_append] at h hx ⊢
    rw [List.map_append, List.map_singleton, List.getLast?_concat] at hx
    cases hx
    have hlast : e ∈ judge none none code := by
      rw [h.judge_eq]
      simp
    have hkeep : (Instruction.goto k t, Verdict.keep) ∈ judge none none code := by
      rw [h.judge_eq]
      exact List.mem_append_left _ (h.kept_mem _ hk)
    -- Both entries have the address `k`, so they are one entry.
    have heq : e = (.goto k t, .keep) := by
      have hn' : ((judge none none code).map fun e => e.1.address).Nodup := by
        rw [addresses, ← map_fst_judge none none code, List.map_map] at hn
        exact hn
      exact List.inj_on_of_nodup_map hn' hlast hkeep hxk
    refine ⟨before.length, by simp, ?_⟩
    rw [h.judge_eq, ← heq]
    simp

/-- Where a jump to a place is sent. By induction on the code from there on: an idle goto sends the
jump on to the instruction after it. -/
theorem sentTo_of_split (hn : (addresses code).Nodup) (s : List Instruction) :
    ∀ {front : List (Instruction × Verdict)} {previous : Option Address}
      {kept : Option Instruction} {i : Instruction} {rest : List Instruction} {n : Nat},
      s = i :: rest → Split code front previous kept s →
      (judge previous kept s).countP (fun e => e.2 ≠ .keep) ≤ n →
      ∃ k j, SentTo (judge none none code) front.length k j ∧
        follow (sentOf code) n i.address = j.address := by
  induction s with
  | nil =>
    intro front previous kept i rest n hs
    cases hs
  | cons i rest ih =>
    intro front previous kept i' rest' n hs hsplit hcount
    cases hs
    have hmem := hsplit.mem
    have hget := hsplit.getElem?
    cases hv : verdict previous kept (rest.head?.map Instruction.address) i with
    | keep =>
      rw [hv] at hmem hget
      exact ⟨_, i, ⟨hget, .inl ⟨Nat.le_refl _, rfl⟩⟩, resolve_of_keep hn hmem n⟩
    | idle t =>
      obtain ⟨_, hhead⟩ := verdict_eq_idle hv
      obtain ⟨j, hj, rfl⟩ := Option.map_eq_some_iff.1 hhead
      obtain ⟨rest', rfl⟩ : ∃ rest', rest = j :: rest' := ⟨_, List.eq_cons_of_mem_head? hj⟩
      have hnext := hsplit.next (by rw [hv]; simp)
      rw [judge, hv, List.countP_cons_of_pos (by simp)] at hcount
      obtain ⟨n, rfl⟩ : ∃ m, n = m + 1 := ⟨n - 1, by omega⟩
      obtain ⟨k, x, hsent, hfollow⟩ :=
        ih (n := n) rfl hnext (by simpa using Nat.le_of_succ_le_succ hcount)
      rw [hv] at hmem hget
      refine ⟨k, x, ⟨hsent.kept, ?_⟩, ?_⟩
      · have hlen : ∀ v : Verdict, (front ++ [(i, v)]).length = front.length + 1 := fun v => by simp
        rcases hsent.near with ⟨hle, hrank⟩ | ⟨hk, _⟩
        · rw [hlen] at hle hrank
          rw [rank_succ hget, if_neg (by simp)] at hrank
          exact .inl ⟨by omega, hrank⟩
        · -- The dropped goto itself is no place to send a jump to.
          rw [hlen, Nat.succ_inj] at hk
          subst hk
          have hsame := hget.symm.trans hsent.kept
          cases hsame
      · rw [follow, get?_sentOf hn hmem]
        exact hfollow
    | repeated k =>
      obtain ⟨t, _, hkept, rfl⟩ := verdict_eq_repeated hv
      obtain ⟨m, hm, hkeep⟩ := hsplit.getElem?_previous hn hkept
      rw [judge, hv, List.countP_cons_of_pos (by simp)] at hcount
      obtain ⟨n, rfl⟩ : ∃ m, n = m + 1 := ⟨n - 1, by omega⟩
      rw [hv] at hmem
      refine ⟨m, _, ⟨hkeep, .inr ⟨hm, rfl⟩⟩, ?_⟩
      rw [follow, get?_sentOf hn hmem]
      exact resolve_of_keep hn (List.mem_of_getElem? hkeep) n

/-- A place in some code, by position. -/
theorem exists_split_at {s : Nat} {i : Instruction} (hs : code[s]? = some i) :
    ∃ front previous kept, front.length = s ∧
      Split code front previous kept (i :: code.drop (s + 1)) := by
  obtain ⟨hlt, hget⟩ := List.getElem?_eq_some_iff.1 hs
  obtain ⟨front, previous, kept, hsplit⟩ := exists_split (List.drop_suffix s code)
  have hlen : front.length = s := by
    have := congrArg List.length hsplit.code_eq
    rw [List.length_append, List.length_map, List.length_drop] at this
    omega
  rw [List.drop_eq_getElem_cons hlt, hget] at hsplit
  exact ⟨front, previous, kept, hlen, hsplit⟩

/-- A jump is sent to an instruction that is kept, if it is followed far enough. -/
theorem exists_sentTo_follow (hn : (addresses code).Nodup) {s n : Nat} {t : Address}
    (hs : code[s]?.map Instruction.address = some t) (hsize : (sentOf code).size ≤ n) :
    ∃ k j, SentTo (judge none none code) s k j ∧ follow (sentOf code) n t = j.address := by
  obtain ⟨i, hi, rfl⟩ := Option.map_eq_some_iff.1 hs
  obtain ⟨front, previous, kept, rfl, hsplit⟩ := exists_split_at hi
  refine sentTo_of_split hn _ rfl hsplit (Nat.le_trans ?_ hsize)
  rw [size_sentOf hn, hsplit.judge_eq, List.countP_append]
  exact Nat.le_add_left _ _

/-- **A jump is sent to an instruction that is kept,** near the one it led to. -/
theorem exists_sentTo (hn : (addresses code).Nodup) {s : Nat} {t : Address}
    (hs : code[s]?.map Instruction.address = some t) :
    ∃ k j, SentTo (judge none none code) s k j ∧ resolve (sentOf code) t = j.address :=
  exists_sentTo_follow hn hs (Nat.le_succ _)

/-- The code that is left, before jumps are sent on. -/
theorem tidy_eq_map (sent : OrderedMap Address Address) (code : List Instruction) :
    tidy sent code =
      (((judge none none code).filter fun e => e.2 = .keep).map Prod.fst).map (redirect sent) :=
  rfl

theorem target?_redirect (sent : OrderedMap Address Address) (i : Instruction) :
    (redirect sent i).target? = i.target?.map (resolve sent) := by
  unfold redirect
  cases i with
  | command a c => rfl
  | condition a clauses skip => cases skip <;> rfl
  | goto a t => rfl

/-- The instruction to which a jump is sent stands at its rank in what is left. -/
theorem SentTo.getElem?_tidy {sent : OrderedMap Address Address} {s k : Nat} {j : Instruction}
    (h : SentTo (judge none none code) s k j) :
    (tidy sent code)[rank (judge none none code) k]? = some (redirect sent j) := by
  rw [tidy_eq_map, List.getElem?_map, getElem?_rank h.kept]
  rfl

theorem mem_of_mem_kept {x : Instruction}
    (hx : x ∈ ((judge none none code).filter fun e => e.2 = .keep).map Prod.fst) : x ∈ code := by
  have hsub := (List.filter_sublist (p := fun e : Instruction × Verdict => e.2 = .keep)
    (l := judge none none code)).map Prod.fst
  rw [map_fst_judge] at hsub
  exact hsub.subset hx

theorem closed_tidy (hc : Closed code) : Closed (tidy (sentOf code) code) := by
  refine ⟨hc.nodup.sublist (addresses_tidy_sublist _ _), fun i hi t ht => ?_⟩
  obtain ⟨x, hx, rfl⟩ := List.mem_map.1 hi
  have hmem := mem_of_mem_kept hx
  rw [target?_redirect] at ht
  obtain ⟨u, hu, rfl⟩ := Option.map_eq_some_iff.1 ht
  obtain ⟨y, hy, hya⟩ := List.mem_map.1 (hc.target_mem x hmem u hu)
  obtain ⟨s, hs⟩ := List.mem_iff_getElem?.1 hy
  obtain ⟨k, j, hsent, hj⟩ := exists_sentTo hc.nodup (s := s) (t := u) (by rw [hs, ← hya]; rfl)
  rw [hj, ← address_redirect (sentOf code) j]
  exact List.mem_map_of_mem (List.mem_of_getElem? hsent.getElem?_tidy)

end Redirections

theorem closed_dropRedundantGotos {p : Program} (hp : p.Sound) :
    Closed p.dropRedundantGotos.program.code := by
  rcases dropRedundantGotos_cases p with h | ⟨h, _⟩
  · rw [h]
    exact hp.closed
  · rw [h]
    exact closed_tidy hp.closed

/-! ## Detours -/

/-- What leads past a new goto leads to what follows it. -/
theorem Bypass.target {below bypass : List Instruction} (h : Bypass below bypass) :
    ∀ i ∈ bypass, ∀ t, i.target? = some t → ∃ next ∈ below.head?, next.address = t := by
  intro i hi t ht
  cases h with
  | goto a next rest hbelow hbypass =>
    rw [hbypass, List.mem_singleton] at hi
    subst hi hbelow
    cases ht
    exact ⟨next, rfl, rfl⟩
  | ret a hbelow hbypass =>
    rw [hbypass, List.mem_singleton] at hi
    subst hi
    cases ht

/-- Where jumps lead after a detour is put in: to the new goto, to where some jump led before, or to
what stands below the detour. -/
theorem Detour.Valid.target_after {d : Detour} (h : d.Valid) {a : Address}
    (ha : some a ∈ d.after.map Instruction.target?) :
    a = d.via ∨ some a ∈ d.before.map Instruction.target? ∨
      ∃ next ∈ d.below.head?, next.address = a := by
  obtain ⟨i, hi, ht⟩ := List.mem_map.1 ha
  have hold : ∀ {j}, j ∈ d.before → j.target? = some a →
      some a ∈ d.before.map Instruction.target? := fun hj hjt => List.mem_map.2 ⟨_, hj, hjt⟩
  rcases List.mem_append.1 hi with habove | hi
  · obtain ⟨j, hj, rfl⟩ := List.mem_map.1 habove
    have hmem : j ∈ d.before := List.mem_append_left _ hj
    by_cases hsource : j.address = d.source
    · obtain ⟨clauses, rfl⟩ := h.source_unique hmem hsource
      rw [Detour.reroute, if_pos hsource] at ht
      exact .inl (Option.some.inj ht).symm
    · rw [Detour.reroute, if_neg hsource] at ht
      exact .inr (.inl (hold hmem ht))
  rcases List.mem_append.1 hi with hinserted | hbelow
  · rcases List.mem_append.1 hinserted with hbypass | hvia
    · rcases h.bypass with hb | ⟨hb, _⟩
      · exact .inr (.inr (hb.target i hbypass a ht))
      · rw [hb] at hbypass
        cases hbypass
    · rw [List.mem_singleton.1 hvia] at ht
      obtain ⟨clauses, hmem⟩ := h.source_mem
      exact .inr (.inl (hold (List.mem_append_left _ hmem) ht))
  · exact .inr (.inl (hold (List.mem_append_right _ hbelow) ht))

theorem Detour.Valid.closed_after {d : Detour} (h : d.Valid) : Closed d.after := by
  have hold : ∀ {a}, a ∈ addresses d.before → a ∈ addresses d.after := fun ha =>
    d.perm_addresses_after.mem_iff.2 (List.mem_append_right _ ha)
  refine ⟨h.nodup_after, fun i hi t ht => ?_⟩
  rcases h.target_after (List.mem_map.2 ⟨i, hi, ht⟩) with rfl | htarget | ⟨next, hnext, rfl⟩
  · refine d.perm_addresses_after.mem_iff.2 (List.mem_append_left _ ?_)
    simp [Detour.inserted, addresses, Instruction.address]
  · obtain ⟨j, hj, hjt⟩ := List.mem_map.1 htarget
    exact hold (h.closed.target_mem j hj t hjt)
  · exact hold (List.mem_map_of_mem (List.mem_append_right _ (List.mem_of_mem_head? hnext)))

theorem closed_selfContain {p : Program} (hp : p.Sound) (h : p.selfContain.result = .ok true) :
    Closed p.selfContain.program.code := by
  obtain ⟨d, hd, _, hafter, _⟩ := exists_detour hp h
  rw [hafter]
  exact hd.closed_after

end Program

/-- **A pass keeps jumps inside the code.** -/
theorem Pass.closed_run {pass : Pass} {p : Program} (hp : p.Sound)
    (h : (pass.run p).result = .ok true) : Closed (pass.run p).program.code := by
  cases pass with
  | unreachable => exact Program.closed_dropUnreachable hp
  | selfContained => exact Program.closed_selfContain hp h
  | redundantGotos => exact Program.closed_dropRedundantGotos hp

end AdventureLogic
