import AdventureLogic.Proofs.Dominance.LinkForest

/-!
# The computation finds the semidominators

One number after the other is settled, from the largest down. What its
predecessors offer is exactly what the semidominator theorem takes the least of
(`Offered`, `answer_leastOffer`), so the number gets its semidominator and is
linked into the forest (`Settled.settle`). After the last number the forest
holds all semidominators (`Settled.semidominators`).

Key definitions: `Offered`, `Answer`, `Settled`. Key theorems:
`answer_leastOffer`, `Settled.settle`, `Settled.semidominators`.
-/

namespace AdventureLogic
namespace Dominance

/-- `c` is one of the numbers from which the semidominator of `w` is taken, if `vs` are the
predecessors of `w`: a smaller predecessor, or the semidominator of a number that is larger than
`w` and stands above a predecessor. -/
inductive Offered (up semi : Nat → Nat) (w : Nat) (vs : List Nat) : Nat → Prop
  | smaller {v : Nat} : v ∈ vs → v < w → Offered up semi w vs v
  | above {u v : Nat} : v ∈ vs → w < u → Above up u v → Offered up semi w vs (semi u)

theorem Offered.mono {up semi : Nat → Nat} {w c : Nat} {vs vs' : List Nat}
    (h : Offered up semi w vs c) (hvs : ∀ v ∈ vs, v ∈ vs') : Offered up semi w vs' c := by
  cases h with
  | smaller hv hlt => exact .smaller (hvs _ hv) hlt
  | above hv hu huv => exact .above (hvs _ hv) hu huv

theorem Offered.cons {up semi : Nat → Nat} {w c v : Nat} {vs : List Nat}
    (h : Offered up semi w (v :: vs) c) :
    Offered up semi w [v] c ∨ Offered up semi w vs c := by
  cases h with
  | smaller hv hlt =>
    rcases List.mem_cons.1 hv with rfl | hv
    · exact .inl (.smaller (List.mem_singleton.2 rfl) hlt)
    · exact .inr (.smaller hv hlt)
  | above hv hu huv =>
    rcases List.mem_cons.1 hv with rfl | hv
    · exact .inl (.above (List.mem_singleton.2 rfl) hu huv)
    · exact .inr (.above hv hu huv)

/-- `r` is the least of what the predecessors `vs` of `w` offer, with the forest after it was asked.
If they offer nothing, it is a number that does not count. -/
structure Answer (up : Nat → Nat) (count w : Nat) (f : Forest) (vs : List Nat) (r : Nat × Forest) :
    Prop where
  linked : Linked up count w r.2
  semiOf_eq : r.2.semiOf = f.semiOf
  mem : Offered up f.semiOf w vs r.1 ∨ w ≤ r.1
  least : ∀ c, Offered up f.semiOf w vs c → r.1 ≤ c

section Offers

variable {up : Nat → Nat} {count w : Nat} {f : Forest} (hup : ∀ w, 0 < w → up w < w)
include hup

/-- A smaller predecessor offers itself and nothing else. -/
theorem offered_singleton_of_lt {semi : Nat → Nat} {v c : Nat} (hv : v < w) :
    Offered up semi w [v] c ↔ c = v := by
  constructor
  · intro hc
    cases hc with
    | smaller hm _ => exact List.mem_singleton.1 hm
    | above hm hu huv =>
      have := huv.le hup
      have := List.mem_singleton.1 hm
      omega
  · rintro rfl
    exact .smaller (List.mem_singleton.2 rfl) hv

/-- A self-loop offers nothing. -/
theorem not_offered_self {semi : Nat → Nat} {c : Nat} : ¬Offered up semi w [w] c := by
  intro hc
  cases hc with
  | smaller hm hlt =>
    have := List.mem_singleton.1 hm
    omega
  | above hm hu huv =>
    have := huv.le hup
    have := List.mem_singleton.1 hm
    omega

theorem answer_of_lt (h : Linked up count w f) {v : Nat} (hv : v < w) :
    Answer up count w f [v] (v, f) where
  linked := h
  semiOf_eq := rfl
  mem := .inl ((offered_singleton_of_lt hup hv).2 rfl)
  least _ hc := Nat.le_of_eq ((offered_singleton_of_lt hup hv).1 hc).symm

theorem answer_offer (h : Linked up count w f) {v : Nat} (hv : v < count) :
    Answer up count w f [v] (Numbering.offer f w v) := by
  rcases Nat.lt_trichotomy v w with hlt | rfl | hgt
  · have ho : Numbering.offer f w v = (v, f) := if_pos hlt
    rw [ho]
    exact answer_of_lt hup h hlt
  · have ho : Numbering.offer f v v = (v, f) := by
      simp [Numbering.offer, Forest.eval, h.above_free v (by omega),
        h.semiOf_free v (Nat.le_refl v)]
    rw [ho]
    exact ⟨h, rfl, .inr (Nat.le_refl v), fun c hc => absurd hc (not_offered_self hup)⟩
  · have ho : Numbering.offer f w v = ((f.eval v).2.semiOf (f.eval v).1, (f.eval v).2) :=
      if_neg (by omega)
    obtain ⟨hl, hsemi, hw, hon, hleast⟩ := h.eval hup hgt hv
    rw [ho]
    refine ⟨hl, hsemi, ?_, fun c hc => ?_⟩
    · rw [hsemi]
      exact .inl (.above (List.mem_singleton.2 rfl) hw hon)
    · rw [hsemi]
      cases hc with
      | smaller hm hlt =>
        have := List.mem_singleton.1 hm
        omega
      | above hm hu huv =>
        obtain rfl := List.mem_singleton.1 hm
        exact hleast _ hu huv

/-- The least offer is the answer of all predecessors, the number to start from among them. -/
theorem answer_leastOffer (vs : List Nat) : ∀ {f : Forest} {least : Nat}, Linked up count w f →
    (∀ v ∈ vs, v < count) → least < w →
    Answer up count w f (least :: vs) (Numbering.leastOffer w f least vs) := by
  induction vs with
  | nil => exact fun h _ hlt => answer_of_lt hup h hlt
  | cons v vs ih =>
    intro f least h hvs hlt
    have ho := answer_offer hup h (hvs v List.mem_cons_self)
    have heq : Numbering.leastOffer w f least (v :: vs) =
        Numbering.leastOffer w (Numbering.offer f w v).2 (min least (Numbering.offer f w v).1) vs :=
      rfl
    rw [heq]
    generalize Numbering.offer f w v = o at ho ⊢
    have hmin : min least o.1 < w := by omega
    have hrest := ih ho.linked (fun x hx => hvs x (List.mem_cons_of_mem v hx)) hmin
    generalize Numbering.leastOffer w o.2 (min least o.1) vs = r at hrest ⊢
    have hle : r.1 ≤ min least o.1 := hrest.least _ (.smaller List.mem_cons_self hmin)
    refine ⟨hrest.linked, hrest.semiOf_eq.trans ho.semiOf_eq, .inl ?_, fun c hc => ?_⟩
    · have hr := hrest.mem.resolve_right (by omega)
      rw [ho.semiOf_eq] at hr
      rcases hr.cons with hr | hr
      · rw [(offered_singleton_of_lt hup hmin).1 hr]
        rcases Nat.le_total least o.1 with hle | hle
        · rw [Nat.min_eq_left hle]
          exact .smaller List.mem_cons_self hlt
        · rw [Nat.min_eq_right hle]
          exact (ho.mem.resolve_right (by omega)).mono (by simp)
      · exact hr.mono (by simp +contextual)
    · rcases hc.cons with hc | hc
      · have := (offered_singleton_of_lt hup hlt).1 hc
        omega
      · rcases hc.cons with hc | hc
        · have := ho.least c hc
          omega
        · rw [← ho.semiOf_eq] at hc
          exact hrest.least c (hc.mono fun x hx => List.mem_cons_of_mem _ hx)

end Offers

/-- The numbers larger than `w` are linked into the forest and their semidominators are known. -/
structure Settled (edge : Nat → Nat → Prop) (d : Numbering) (w : Nat) (f : Forest) : Prop where
  linked : Linked d.parentOf d.count w f
  isSemi : ∀ v, w < v → v < d.count → IsSemi edge v (f.semiOf v)

namespace Settled

variable {edge : Nat → Nat → Prop} {d : Numbering} {g : Graph}
  (hd : DepthFirst d.count edge d.parentOf)
  (hpred : ∀ w < d.count, ∀ v, v ∈ d.predecessors g w ↔ edge v w)
include hd hpred

/-- **One step.** Settling the next number finds its semidominator. -/
theorem settle {w : Nat} {f : Forest} (h : Settled edge d (w + 1) f) (hc : w + 1 < d.count) :
    Settled edge d w (d.settle g f (w + 1)) := by
  have hlt := hd.up_lt (w + 1) (by omega)
  have hparent : d.parentOf (w + 1) ∈ d.predecessors g (w + 1) :=
    (hpred _ hc _).2 (hd.edge_up (w + 1) (by omega) hc)
  have hcount : ∀ v ∈ d.predecessors g (w + 1), v < d.count := fun v hv =>
    (hd.lt_count ((hpred _ hc v).1 hv)).1
  have hr := answer_leastOffer hd.up_lt _ h.linked hcount hlt
  have heq : d.settle g f (w + 1) =
      ((Numbering.leastOffer (w + 1) f (d.parentOf (w + 1)) (d.predecessors g (w + 1))).2.setSemi
        (w + 1) (Numbering.leastOffer (w + 1) f (d.parentOf (w + 1))
          (d.predecessors g (w + 1))).1).link (d.parentOf (w + 1)) (w + 1) := rfl
  rw [heq]
  generalize Numbering.leastOffer (w + 1) f (d.parentOf (w + 1)) (d.predecessors g (w + 1)) = r at hr
  have hs : IsSemi edge (w + 1) r.1 := by
    have hle := hr.least _ (.smaller List.mem_cons_self hlt)
    have hmem : Offered d.parentOf f.semiOf (w + 1) (d.predecessors g (w + 1)) r.1 :=
      (hr.mem.resolve_right (by omega)).mono (by simpa using hparent)
    have hleast : ∀ c, Offered d.parentOf f.semiOf (w + 1) (d.predecessors g (w + 1)) c → r.1 ≤ c :=
      fun c hc => hr.least c (hc.mono fun v hv => List.mem_cons_of_mem _ hv)
    refine hd.isSemi_of_least (by omega) h.isSemi ?_ ?_ ?_
    · generalize r.1 = s at hmem
      cases hmem with
      | smaller hv _ => exact .inl ((hpred _ hc _).1 hv)
      | above hv hu huv => exact .inr ⟨_, _, hu, huv, (hpred _ hc _).1 hv, rfl⟩
    · exact fun v e hv => hleast v (.smaller ((hpred _ hc v).2 e) hv)
    · exact fun u v hu huv e => hleast _ (.above ((hpred _ hc v).2 e) hu huv)
  refine ⟨hr.linked.linkNext hd.up_lt hc r.1, fun v hv hvc => ?_⟩
  have hread : ((r.2.setSemi (w + 1) r.1).link (d.parentOf (w + 1)) (w + 1)).semiOf v =
      if v = w + 1 then r.1 else r.2.semiOf v :=
    Forest.semiOf_setSemi (hr.linked.size_semi.symm ▸ hc) r.1 v
  rw [hread]
  by_cases hvw : v = w + 1
  · subst hvw
    rw [if_pos rfl]
    exact hs
  · rw [if_neg hvw, hr.semiOf_eq]
    exact h.isSemi v (by omega) hvc

/-- All steps: after the number 1 every number is settled. -/
theorem settleDown {w : Nat} : ∀ {f : Forest}, Settled edge d w f → w ≤ d.count - 1 →
    Settled edge d 0 (d.settleDown g f w) := by
  induction w with
  | zero => exact fun h _ => h
  | succ w ih =>
    intro f h hw
    exact ih (h.settle hd hpred (by omega)) (by omega)

/-- **The forest of a numbering holds the semidominators of all numbers but the root's.** -/
theorem semidominators : Settled edge d 0 (d.semidominators g) := by
  refine settleDown hd hpred ⟨.isolated d.parentOf (by omega), ?_⟩ (Nat.le_refl _)
  intro v hv hvc
  omega

end Settled
end Dominance
end AdventureLogic
