import AdventureLogic.Proofs.Program.Sound

/-!
# Dropping redundant gotos changes no run

A dropped goto leads to the instruction after it, or it repeats the goto before
it. Jumps to it are sent on: in the first case to where it leads, in the second
to the goto that was kept. As long as control does not come from a goto that was
kept, what is left of the code from where it stands does not depend on what came
before (`tidy`). Control that jumps to a goto that repeats another stands at that
other one instead, and both lead to the same place.

Key definitions: `Program.tidy`, `Program.Follows`. Key theorem:
`Program.equivalent_dropRedundantGotos`.
-/

namespace AdventureLogic
namespace Program

/-- What is left of code after an instruction at `previous` and a last kept one. -/
def cleaned (sent : OrderedMap Address Address) (previous : Option Address)
    (kept : Option Instruction) (code : List Instruction) : List Instruction :=
  (((judge previous kept code).filter fun e => e.2 = .keep).map Prod.fst).map (redirect sent)

/-- What is left of code that control does not enter from a goto. -/
def tidy (sent : OrderedMap Address Address) (code : List Instruction) : List Instruction :=
  cleaned sent none none code

@[simp] theorem address_redirect (sent : OrderedMap Address Address) (i : Instruction) :
    (redirect sent i).address = i.address := by
  unfold redirect
  cases i.target? <;> simp

theorem cleaned_cons_of_keep {sent : OrderedMap Address Address} {previous : Option Address}
    {kept : Option Instruction} {i : Instruction} {rest : List Instruction}
    (h : verdict previous kept (rest.head?.map Instruction.address) i = .keep) :
    cleaned sent previous kept (i :: rest) =
      redirect sent i :: cleaned sent (some i.address) (some i) rest := by
  simp [cleaned, judge, h]

theorem cleaned_cons_of_drop {sent : OrderedMap Address Address} {previous : Option Address}
    {kept : Option Instruction} {i : Instruction} {rest : List Instruction}
    (h : verdict previous kept (rest.head?.map Instruction.address) i ≠ .keep) :
    cleaned sent previous kept (i :: rest) = cleaned sent (some i.address) kept rest := by
  simp [cleaned, judge, h]

/-- A verdict other than that a goto is repeated does not depend on what came before. -/
theorem verdict_none_none {previous : Option Address} {kept : Option Instruction}
    {next : Option Address} {i : Instruction}
    (h : ∀ k, verdict previous kept next i ≠ .repeated k) :
    verdict none none next i = verdict previous kept next i := by
  cases i with
  | command a c => rfl
  | condition a clauses skip => rfl
  | goto a t =>
    unfold verdict at h ⊢
    dsimp only at h ⊢
    by_cases hn : next = some t
    · rw [if_pos hn, if_pos hn]
    · rw [if_neg hn] at h
      rw [if_neg hn, if_neg hn]
      split
      · rename_i k u
        dsimp only at h
        split
        · rename_i hk
          rw [if_pos hk] at h
          exact absurd rfl (h k)
        · rfl
      · rfl

theorem verdict_ne_repeated (previous : Option Address) {kept : Option Instruction}
    (hk : ∀ k u, kept ≠ some (.goto k u)) (next : Option Address) (i : Instruction) (k : Address) :
    verdict previous kept next i ≠ .repeated k := by
  cases i with
  | command a c => simp [verdict]
  | condition a clauses skip => simp [verdict]
  | goto a t =>
    unfold verdict
    dsimp only
    split
    · simp
    · split
      · rename_i k' u
        exact absurd rfl (hk k' u)
      · simp

/-- What came before matters only if the last kept instruction is a goto. -/
theorem cleaned_eq_tidy {sent : OrderedMap Address Address} {kept : Option Instruction}
    (hk : ∀ k u, kept ≠ some (.goto k u)) (previous : Option Address) (code : List Instruction) :
    cleaned sent previous kept code = tidy sent code := by
  induction code generalizing previous kept with
  | nil => rfl
  | cons i rest ih =>
    have hv := verdict_none_none (verdict_ne_repeated previous hk
      (rest.head?.map Instruction.address) i)
    by_cases h : verdict previous kept (rest.head?.map Instruction.address) i = .keep
    · rw [tidy, cleaned_cons_of_keep h, cleaned_cons_of_keep (hv.trans h)]
    · rw [tidy, cleaned_cons_of_drop h, cleaned_cons_of_drop (hv ▸ h), ih hk, ih (by simp)]

/-- An instruction other than a goto is kept. -/
theorem tidy_cons {sent : OrderedMap Address Address} {i : Instruction} (hi : i.isGoto = false)
    (rest : List Instruction) : tidy sent (i :: rest) = redirect sent i :: tidy sent rest := by
  have hv : verdict none none (rest.head?.map Instruction.address) i = .keep := by
    cases i with
    | command a c => rfl
    | condition a clauses skip => rfl
    | goto a t => cases hi
  rw [tidy, cleaned_cons_of_keep hv, cleaned_eq_tidy]
  rintro k u ⟨⟩
  cases hi

/-- A goto to the next instruction is dropped. -/
theorem tidy_goto_next (sent : OrderedMap Address Address) (a : Address) (j : Instruction)
    (rest : List Instruction) :
    tidy sent (.goto a j.address :: j :: rest) = tidy sent (j :: rest) := by
  rw [tidy, cleaned_cons_of_drop (by simp [verdict]), cleaned_eq_tidy (by simp)]

/-- Any other goto is kept, and leads to where its target leads. -/
theorem tidy_goto (sent : OrderedMap Address Address) (a : Address) {t : Address}
    {rest : List Instruction} (h : rest.head?.map Instruction.address ≠ some t) :
    ∃ rest', tidy sent (.goto a t :: rest) = .goto a (resolve sent t) :: rest' := by
  have hv : verdict none none (rest.head?.map Instruction.address) (.goto a t) = .keep := by
    simp only [verdict, if_neg h]
  exact ⟨_, cleaned_cons_of_keep hv⟩

/-- The verdicts on code, split at a place in it. What was kept last was kept before that place, and
the previous address is that of the instruction right before it. -/
theorem exists_judge_append (pre s : List Instruction) :
    ∀ (previous : Option Address) (kept : Option Instruction),
      ∃ front previous' kept', judge previous kept (pre ++ s) = front ++ judge previous' kept' s ∧
        front.map Prod.fst = pre ∧ previous' = (pre.getLast?.map Instruction.address).or previous ∧
        ∀ x, kept' = some x → kept = some x ∨ (x, .keep) ∈ front := by
  induction pre with
  | nil => exact fun previous kept => ⟨[], previous, kept, rfl, rfl, rfl, fun x hx => .inl hx⟩
  | cons i pre ih =>
    intro previous kept
    rw [List.cons_append, judge]
    generalize verdict previous kept ((pre ++ s).head?.map Instruction.address) i = v
    obtain ⟨front, previous', kept', hj, hf, hp, hk⟩ :=
      ih (some i.address) (if v = .keep then some i else kept)
    refine ⟨(i, v) :: front, previous', kept', by rw [hj]; rfl, by rw [List.map_cons, hf], ?_, ?_⟩
    · rw [hp, List.getLast?_cons]
      cases pre.getLast? <;> rfl
    · intro x hx
      rcases hk x hx with h | h
      · split at h
        · rename_i hv
          cases h
          exact .inr (hv ▸ List.mem_cons_self)
        · exact .inl h
      · exact .inr (List.mem_cons_of_mem _ h)

theorem map_fst_judge (previous : Option Address) (kept : Option Instruction)
    (code : List Instruction) : (judge previous kept code).map Prod.fst = code := by
  induction code generalizing previous kept with
  | nil => rfl
  | cons i rest ih => rw [judge, List.map_cons, ih]

/-- Only gotos are dropped: idle ones lead on, repeated ones have the same goto before them. -/
theorem verdict_eq_idle {previous : Option Address} {kept : Option Instruction}
    {next : Option Address} {i : Instruction} {t : Address}
    (h : verdict previous kept next i = .idle t) : i = .goto i.address t ∧ next = some t := by
  cases i with
  | command a c => cases h
  | condition a clauses skip => cases h
  | goto a u =>
    unfold verdict at h
    dsimp only at h
    split at h
    · rename_i hn
      cases h
      exact ⟨rfl, hn⟩
    · split at h
      · split at h
        · cases h
        · cases h
      · cases h

theorem verdict_eq_repeated {previous : Option Address} {kept : Option Instruction}
    {next : Option Address} {i : Instruction} {k : Address}
    (h : verdict previous kept next i = .repeated k) :
    ∃ t, i = .goto i.address t ∧ kept = some (.goto k t) ∧ previous = some k := by
  cases i with
  | command a c => cases h
  | condition a clauses skip => cases h
  | goto a u =>
    unfold verdict at h
    dsimp only at h
    split at h
    · cases h
    · split at h
      · split at h
        · rename_i hk
          cases h
          exact ⟨u, rfl, by rw [hk.2], hk.1⟩
        · cases h
      · cases h

section Redirections

variable {code : List Instruction}

/-- Where jumps to the dropped instructions of some code are sent. -/
def sentOf (code : List Instruction) : OrderedMap Address Address :=
  redirects (judge none none code)

theorem nodup_keys_redirects (hn : (addresses code).Nodup) :
    (((judge none none code).filterMap fun e =>
      e.2.redirect?.map fun t => (e.1.address, t)).map Prod.fst).Nodup := by
  have hsub : (((judge none none code).filterMap fun e =>
      e.2.redirect?.map fun t => (e.1.address, t)).map Prod.fst).Sublist
        (((judge none none code).map Prod.fst).map Instruction.address) := by
    rw [List.map_filterMap, List.map_map]
    generalize judge none none code = judged
    induction judged with
    | nil => exact .slnil
    | cons e rest ih =>
      rw [List.filterMap_cons, List.map_cons]
      cases e.2.redirect? with
      | none => exact ih.cons _
      | some t => exact ih.cons_cons _
  rw [map_fst_judge] at hsub
  exact hn.sublist hsub

/-- Jumps to an instruction are sent where its verdict says. -/
theorem get?_sentOf (hn : (addresses code).Nodup) {i : Instruction} {v : Verdict}
    (h : (i, v) ∈ judge none none code) : (sentOf code).get? i.address = v.redirect? := by
  refine Option.ext fun b => ?_
  rw [sentOf, redirects, OrderedMap.get?_ofList (nodup_keys_redirects hn), List.mem_filterMap]
  constructor
  · rintro ⟨⟨j, w⟩, hj, he⟩
    obtain ⟨t, ht, hb⟩ := Option.map_eq_some_iff.1 he
    obtain ⟨ha, rfl⟩ := Prod.mk.inj hb
    -- Two entries with one address are one entry.
    have heq : (j, w) = (i, v) := by
      have hn' : ((judge none none code).map fun e => e.1.address).Nodup := by
        have := map_fst_judge none none code
        rw [addresses, ← this, List.map_map] at hn
        exact hn
      exact List.inj_on_of_nodup_map hn' hj h ha
    cases heq
    exact ht
  · intro hb
    exact ⟨(i, v), h, by rw [hb]; rfl⟩

theorem size_sentOf (hn : (addresses code).Nodup) :
    (sentOf code).size = (judge none none code).countP fun e => e.2 ≠ .keep := by
  rw [OrderedMap.size_eq_length_entries, sentOf, redirects,
    OrderedMap.entries_ofList (nodup_keys_redirects hn), List.length_filterMap_eq_countP]
  refine List.countP_congr fun e _ => ?_
  cases e.2 <;> simp [Verdict.redirect?]

theorem code_dropRedundantGotos (p : Program)
    (h : ((judge none none p.code).all fun e => e.2 = .keep) = false) :
    p.dropRedundantGotos.program.code = tidy (sentOf p.code) p.code := by
  unfold dropRedundantGotos
  dsimp only
  rw [if_neg (by simp [h])]
  rfl

theorem resolve_of_keep (hn : (addresses code).Nodup) {i : Instruction}
    (h : (i, .keep) ∈ judge none none code) (n : Nat) :
    follow (sentOf code) n i.address = i.address := by
  cases n with
  | zero => rfl
  | succ n => rw [follow, get?_sentOf hn h]; rfl

theorem addresses_tidy_sublist (sent : OrderedMap Address Address) (code : List Instruction) :
    (addresses (tidy sent code)).Sublist (addresses code) := by
  have hsub := (List.filter_sublist (p := fun e : Instruction × Verdict => e.2 = .keep)
    (l := judge none none code)).map Prod.fst
  rw [map_fst_judge] at hsub
  have heq : addresses (tidy sent code) =
      addresses (((judge none none code).filter fun e => e.2 = .keep).map Prod.fst) := by
    rw [addresses, tidy, cleaned, List.map_map]
    exact List.map_congr_left fun i _ => address_redirect sent i
  rw [heq]
  exact hsub.map _

/-- A place in some code, and the verdicts before it. -/
structure Split (code : List Instruction) (front : List (Instruction × Verdict))
    (previous : Option Address) (kept : Option Instruction) (s : List Instruction) : Prop where
  code_eq : code = front.map Prod.fst ++ s
  judge_eq : judge none none code = front ++ judge previous kept s
  previous_eq : previous = (front.map Prod.fst).getLast?.map Instruction.address
  /-- What was kept last was kept before the place. -/
  kept_mem : ∀ x, kept = some x → (x, .keep) ∈ front

theorem exists_split {s : List Instruction} (h : s <:+ code) :
    ∃ front previous kept, Split code front previous kept s := by
  obtain ⟨pre, rfl⟩ := h
  obtain ⟨front, previous, kept, hj, hf, hp, hk⟩ := exists_judge_append pre s none none
  refine ⟨front, previous, kept, by rw [hf], hj, by rw [hp, hf, Option.or_none], fun x hx => ?_⟩
  exact (hk x hx).resolve_left (by simp)

namespace Split

variable {front : List (Instruction × Verdict)} {previous : Option Address}
  {kept : Option Instruction} {i : Instruction} {rest : List Instruction}

theorem suffix {s : List Instruction} (h : Split code front previous kept s) : s <:+ code :=
  ⟨_, h.code_eq.symm⟩

/-- The verdict on the instruction at the place. -/
theorem mem (h : Split code front previous kept (i :: rest)) :
    (i, verdict previous kept (rest.head?.map Instruction.address) i) ∈ judge none none code := by
  rw [h.judge_eq]
  exact List.mem_append_right _ List.mem_cons_self

/-- After a dropped instruction the last kept one is the same as before. -/
theorem next (h : Split code front previous kept (i :: rest))
    (hv : verdict previous kept (rest.head?.map Instruction.address) i ≠ .keep) :
    Split code (front ++ [(i, verdict previous kept (rest.head?.map Instruction.address) i)])
      (some i.address) kept rest where
  code_eq := by
    rw [h.code_eq, List.map_append, List.append_assoc]
    rfl
  judge_eq := by
    rw [h.judge_eq, judge, if_neg hv, List.append_assoc]
    rfl
  previous_eq := by simp
  kept_mem x hx := List.mem_append_left _ (h.kept_mem x hx)

/-- The address of a kept instruction leads to what is left of the code from there. -/
theorem codeFrom_tidy (hn : (addresses code).Nodup) (h : Split code front previous kept (i :: rest))
    (hv : verdict previous kept (rest.head?.map Instruction.address) i = .keep) :
    codeFrom (tidy (sentOf code) code) i.address = tidy (sentOf code) (i :: rest) := by
  have hi : i.address ∉ addresses
      (((front.filter fun e => e.2 = .keep).map Prod.fst).map (redirect (sentOf code))) := by
    intro hm
    obtain ⟨x, hx, hxa⟩ := List.mem_map.1 hm
    obtain ⟨y, hy, rfl⟩ := List.mem_map.1 hx
    obtain ⟨e, he, rfl⟩ := List.mem_map.1 hy
    have hpre : e.1.address ∈ addresses (front.map Prod.fst) :=
      List.mem_map_of_mem (List.mem_map_of_mem (List.mem_filter.1 he).1)
    rw [h.code_eq, addresses, List.map_append, List.nodup_append] at hn
    rw [address_redirect] at hxa
    exact hn.2.2 _ hpre _ List.mem_cons_self hxa
  have hv' : verdict none none (rest.head?.map Instruction.address) i = .keep :=
    (verdict_none_none (by rw [hv]; simp)).trans hv
  have hcode : tidy (sentOf code) code =
      ((front.filter fun e => e.2 = .keep).map Prod.fst).map (redirect (sentOf code)) ++
        cleaned (sentOf code) previous kept (i :: rest) := by
    rw [tidy, cleaned, h.judge_eq, List.filter_append, List.map_append, List.map_append]
    rfl
  rw [hcode, codeFrom_append hi, cleaned_cons_of_keep hv, tidy, cleaned_cons_of_keep hv',
    ← address_redirect (sentOf code) i, codeFrom_cons_self]

end Split

/-- The address of a kept instruction leads to it, sent on. -/
theorem codeFrom_tidy_of_keep (hn : (addresses code).Nodup) {i : Instruction}
    (h : (i, .keep) ∈ judge none none code) :
    ∃ rest, codeFrom (tidy (sentOf code) code) i.address = redirect (sentOf code) i :: rest := by
  have hmem : i ∈ code := by
    have := List.mem_map_of_mem (f := Prod.fst) h
    rwa [map_fst_judge] at this
  obtain ⟨pre, rest, hcode⟩ := List.append_of_mem hmem
  obtain ⟨front, previous, kept, hs⟩ := exists_split (s := i :: rest) ⟨pre, hcode.symm⟩
  have hv : verdict previous kept (rest.head?.map Instruction.address) i = .keep := by
    have hnone := (get?_sentOf hn hs.mem).symm.trans (get?_sentOf hn h)
    generalize verdict previous kept (rest.head?.map Instruction.address) i = v at hnone
    cases v with
    | keep => rfl
    | idle t => cases hnone
    | repeated k => cases hnone
  have hv' := (verdict_none_none (by rw [hv]; simp)).trans hv
  rw [hs.codeFrom_tidy hn hv]
  exact ⟨_, cleaned_cons_of_keep hv'⟩

/-- How control in the code matches control in what is left of it. -/
inductive Follows (code : List Instruction) : Nat → List Instruction → List Instruction → Prop where
  /-- Both stand at the same place. -/
  | run {s : List Instruction} (h : s <:+ code) : Follows code s.length s (tidy (sentOf code) s)
  /-- One stands at a goto that repeats the other's. -/
  | twin {a k t : Address} {rest rest' : List Instruction} (h : t ∈ addresses code) :
    Follows code 0 (.goto a t :: rest) (.goto k (resolve (sentOf code) t) :: rest')
  /-- One stands at a goto that leads to where the other is. -/
  | hop {n : Nat} {a t : Address} {rest s' : List Instruction}
    (h : Follows code n (codeFrom code t) s') : Follows code (n + 1) (.goto a t :: rest) s'

/-- A jump to a place matches where it is sent. By induction on the code from there on: an idle
goto sends the jump on to the instruction after it. -/
theorem follows_of_split (hc : Closed code) (s : List Instruction) :
    ∀ {front : List (Instruction × Verdict)} {previous : Option Address}
      {kept : Option Instruction} {i : Instruction} {rest : List Instruction} {n : Nat},
      s = i :: rest → Split code front previous kept s →
      (judge previous kept s).countP (fun e => e.2 ≠ .keep) ≤ n →
      ∃ k, Follows code k s
        (codeFrom (tidy (sentOf code) code) (follow (sentOf code) n i.address)) := by
  induction s with
  | nil =>
    intro front previous kept i rest n hs
    cases hs
  | cons i rest ih =>
    intro front previous kept i' rest' n hs hsplit hcount
    cases hs
    have hmem := hsplit.mem
    cases hv : verdict previous kept (rest.head?.map Instruction.address) i with
    | keep =>
      rw [hv] at hmem
      rw [resolve_of_keep hc.nodup hmem, hsplit.codeFrom_tidy hc.nodup hv]
      exact ⟨_, .run hsplit.suffix⟩
    | idle t =>
      obtain ⟨hgoto, hhead⟩ := verdict_eq_idle hv
      obtain ⟨j, hj, rfl⟩ := Option.map_eq_some_iff.1 hhead
      obtain ⟨rest', rfl⟩ : ∃ rest', rest = j :: rest' :=
        ⟨_, List.eq_cons_of_mem_head? hj⟩
      have hnext := hsplit.next (by rw [hv]; simp)
      rw [judge, hv, List.countP_cons_of_pos (by simp)] at hcount
      obtain ⟨n, rfl⟩ : ∃ m, n = m + 1 := ⟨n - 1, by omega⟩
      obtain ⟨k, hfollow⟩ := ih (n := n) rfl hnext (by simpa using Nat.le_of_succ_le_succ hcount)
      rw [hv] at hmem
      refine ⟨k + 1, ?_⟩
      rw [follow, get?_sentOf hc.nodup hmem, hgoto]
      refine .hop ?_
      rw [codeFrom_of_suffix hc.nodup hnext.suffix]
      exact hfollow
    | repeated k =>
      obtain ⟨t, hgoto, hkept, _⟩ := verdict_eq_repeated hv
      have hkeep : (Instruction.goto k t, .keep) ∈ judge none none code := by
        rw [hsplit.judge_eq]
        exact List.mem_append_left _ (hsplit.kept_mem _ hkept)
      obtain ⟨rest', hrest⟩ := codeFrom_tidy_of_keep hc.nodup hkeep
      rw [judge, hv, List.countP_cons_of_pos (by simp)] at hcount
      obtain ⟨n, rfl⟩ : ∃ m, n = m + 1 := ⟨n - 1, by omega⟩
      rw [hv] at hmem
      have hfollow : follow (sentOf code) (n + 1) i.address = k := by
        rw [follow, get?_sentOf hc.nodup hmem]
        exact resolve_of_keep hc.nodup hkeep n
      have ht : t ∈ addresses code := by
        have hi : i ∈ code := hsplit.suffix.subset List.mem_cons_self
        refine hc.target_mem i hi t ?_
        rw [hgoto]
        rfl
      refine ⟨0, ?_⟩
      rw [hfollow, hgoto]
      exact hrest ▸ .twin ht

/-- A jump to an instruction matches where it is sent. -/
theorem follows_codeFrom (hc : Closed code) {t : Address} (ht : t ∈ addresses code) :
    ∃ k, Follows code k (codeFrom code t)
      (codeFrom (tidy (sentOf code) code) (resolve (sentOf code) t)) := by
  obtain ⟨i, rest, heq, rfl, hsuffix⟩ := codeFrom_eq_cons ht
  obtain ⟨front, previous, kept, hs⟩ := exists_split hsuffix
  rw [heq]
  refine follows_of_split hc _ rfl hs ?_
  rw [size_sentOf hc.nodup, hs.judge_eq, List.countP_append]
  omega

theorem matched_of_follows (hc : Closed code) {k : Nat} {s s' : List Instruction}
    (h : Follows code k s s') :
    (Machine.ofCode code).Matched (Machine.ofCode (tidy (sentOf code) code)) (Follows code) k s s'
      := by
  cases h with
  | hop h => exact .left rfl h (Nat.lt_succ_self _)
  | twin ht => exact .both (.pass (follows_codeFrom hc ht))
  | run hs =>
    cases s with
    | nil => exact .both .halt
    | cons i rest =>
      have hrest : rest <:+ code := (List.suffix_cons i rest).trans hs
      have hjump : ∀ t, i.target? = some t → ∃ k, Follows code k (codeFrom code t)
          (codeFrom (tidy (sentOf code) code) (resolve (sentOf code) t)) :=
        fun t ht => follows_codeFrom hc (hc.target_mem i (hs.subset List.mem_cons_self) t ht)
      cases i with
      | command a c =>
        rw [tidy_cons rfl]
        exact .both (Machine.related_command a a c fun _ => ⟨_, .run hrest⟩)
      | condition a clauses skip =>
        rw [tidy_cons rfl]
        cases skip with
        | none =>
          exact .both (Machine.related_condition_none a a clauses ⟨_, .run hrest⟩
            ⟨_, .run List.nil_suffix⟩)
        | some t =>
          exact .both (Machine.related_condition a a clauses ⟨_, .run hrest⟩ (hjump t rfl))
      | goto a t =>
        by_cases hnext : rest.head?.map Instruction.address = some t
        · obtain ⟨j, hj, rfl⟩ := Option.map_eq_some_iff.1 hnext
          obtain ⟨rest', rfl⟩ : ∃ rest', rest = j :: rest' := ⟨_, List.eq_cons_of_mem_head? hj⟩
          rw [tidy_goto_next]
          refine .left rfl ?_ (Nat.lt_succ_self _)
          rw [codeFrom_of_suffix hc.nodup hrest]
          exact .run hrest
        · obtain ⟨rest', h⟩ := tidy_goto (sentOf code) a hnext
          rw [h]
          exact .both (.pass (hjump t rfl))

end Redirections

/-- **Dropping redundant gotos changes no run.** -/
theorem equivalent_dropRedundantGotos {p : Program} (hp : p.Sound) :
    (Machine.ofCode p.code).Equivalent (Machine.ofCode p.dropRedundantGotos.program.code) := by
  cases h : (judge none none p.code).all fun e => e.2 = .keep with
  | true =>
    unfold dropRedundantGotos
    dsimp only
    rw [if_pos (by simpa using h)]
    exact .refl _
  | false =>
    rw [code_dropRedundantGotos p h]
    exact Machine.equivalent_of_matched (Follows p.code) (.run (List.suffix_refl _))
      fun _ _ _ hf => matched_of_follows hp.closed hf

end Program
end AdventureLogic
