import AdventureLogic.Dominance.Numbering
import AdventureLogic.Proofs.Dominance.DepthFirst

/-!
# What the link forest answers

Numbers are linked below smaller ones. A link of the forest cuts a part out of
the path up the tree, and the number at its lower end remembers the best number
of that part (`BestOn`). This holds of every link (`Represents`), whatever
numbers are linked and in which order: a new link spans nothing but the number
itself, and where two links follow on each other, one that passes over both
takes the better of what they remember. So the forest's answer is the best of
all linked numbers above a number (`Represents.eval`).

While semidominators are computed, every number larger than the one at work is
linked into the forest (`Linked`).

Key definitions: `BestOn`, `Represents`, `Linked`. Key theorems: `BestOn.join`,
`Forest.compress_induction`, `Represents.compress`, `Represents.eval`,
`Linked.eval`.
-/

namespace AdventureLogic
namespace Dominance

/-- On the way up from `v` to `a`, `a` itself not counted, no number has a smaller semidominator
than `b`. -/
structure BestOn (up semi : Nat → Nat) (v a b : Nat) : Prop where
  top : Above up a v
  lt : a < b
  on : Above up b v
  least : ∀ u, Above up u v → a < u → semi b ≤ semi u

/-- The best of a path is the better one of its two parts. -/
theorem BestOn.join {up semi : Nat → Nat} (hup : ∀ w, 0 < w → up w < w) {v a r b c : Nat}
    (hb : BestOn up semi v a b) (hc : BestOn up semi a r c) :
    BestOn up semi v r (if semi c < semi b then c else b) := by
  have hca := hc.on.le hup
  have hrc := hc.lt
  have hab := hb.lt
  have hleast : ∀ u, Above up u v → r < u → semi b ≤ semi u ∨ semi c ≤ semi u := by
    intro u hu hru
    rcases Nat.lt_or_ge a u with hau | hua
    · exact .inl (hb.least u hu hau)
    · exact .inr (hc.least u (hu.of_le hup hb.top hua) hru)
  split
  · rename_i hlt
    refine ⟨hc.top.trans hb.top, hrc, hc.on.trans hb.top, fun u hu hru => ?_⟩
    rcases hleast u hu hru with hle | hle <;> omega
  · rename_i hle
    refine ⟨hc.top.trans hb.top, by omega, hb.on, fun u hu hru => ?_⟩
    rcases hleast u hu hru with hle | hle <;> omega

theorem BestOn.congr {up semi semi' : Nat → Nat} {v a b : Nat} (hb : BestOn up semi v a b)
    (heq : ∀ u, Above up u v → a < u → semi' u = semi u) : BestOn up semi' v a b := by
  refine ⟨hb.top, hb.lt, hb.on, fun u hu hau => ?_⟩
  rw [heq b hb.on hb.lt, heq u hu hau]
  exact hb.least u hu hau

/-! ## Reading a changed forest -/

theorem getD_setIfInBounds {α : Type} {xs : Array α} {v : Nat} (hv : v < xs.size) (y d : α)
    (x : Nat) : (xs.setIfInBounds v y).getD x d = if x = v then y else xs.getD x d := by
  rw [Array.getD_eq_getD_getElem?, Array.getD_eq_getD_getElem?, Array.getElem?_setIfInBounds]
  by_cases hx : x = v
  · simp [hx, hv]
  · simp [hx, Ne.symm hx]

theorem getD_setIfInBounds_of_ne {α : Type} (xs : Array α) {v x : Nat} (hx : x ≠ v) (y d : α) :
    (xs.setIfInBounds v y).getD x d = xs.getD x d := by
  rw [Array.getD_eq_getD_getElem?, Array.getD_eq_getD_getElem?, Array.getElem?_setIfInBounds,
    if_neg (Ne.symm hx)]

namespace Forest

theorem lt_size_of_above {f : Forest} {v a : Nat} (h : f.above v = some a) :
    v < f.ancestor.size := by
  apply Nat.lt_of_not_le
  intro hle
  simp [above, hle] at h

theorem semiOf_setSemi {f : Forest} {v : Nat} (hv : v < f.semi.size) (s x : Nat) :
    (f.setSemi v s).semiOf x = if x = v then s else f.semiOf x :=
  getD_setIfInBounds hv s x x

theorem semiOf_setSemi_of_ne (f : Forest) {v x : Nat} (hx : x ≠ v) (s : Nat) :
    (f.setSemi v s).semiOf x = f.semiOf x :=
  getD_setIfInBounds_of_ne _ hx s x

theorem above_link {f : Forest} {v : Nat} (hv : v < f.ancestor.size) (a x : Nat) :
    (f.link a v).above x = if x = v then some a else f.above x :=
  getD_setIfInBounds hv (some a) none x

@[simp] theorem semiOf_shorten (f : Forest) (v a : Nat) : (f.shorten v a).semiOf = f.semiOf := rfl

theorem above_shorten {f : Forest} {v : Nat} (hv : v < f.ancestor.size) (a x : Nat) :
    (f.shorten v a).above x = if x = v then f.above a else f.above x :=
  getD_setIfInBounds hv (f.above a) none x

theorem above_shorten_of_ne (f : Forest) {v x : Nat} (hx : x ≠ v) (a : Nat) :
    (f.shorten v a).above x = f.above x :=
  getD_setIfInBounds_of_ne _ hx (f.above a) none

theorem bestOf_shorten {f : Forest} {v : Nat} (hv : v < f.best.size) (a x : Nat) :
    (f.shorten v a).bestOf x =
      if x = v then
        if f.semiOf (f.bestOf a) < f.semiOf (f.bestOf v) then f.bestOf a else f.bestOf v
      else f.bestOf x := by
  rw [bestOf, shorten]
  by_cases hlt : f.semiOf (f.bestOf a) < f.semiOf (f.bestOf v)
  · rw [if_pos hlt, if_pos hlt]
    exact getD_setIfInBounds hv (f.bestOf a) x x
  · rw [if_neg hlt, if_neg hlt]
    by_cases hx : x = v
    · rw [if_pos hx, hx, bestOf]
    · rw [if_neg hx, bestOf]

/-! ## Shortening a path step by step -/

/-- Shortening the path above a number changes no links of larger ones. -/
theorem above_compress_of_lt (f : Forest) {v x : Nat} (hx : v < x) :
    (f.compress v).above x = f.above x := by
  induction v using Nat.strongRecOn with
  | ind v ih =>
    rw [compress]
    split
    · rfl
    · split
      · rename_i a _ hcond
        rw [above_shorten_of_ne _ (by omega), ih a hcond.1 (by omega)]
      · rfl

/-- A number that is linked stays so. -/
theorem exists_above_compress (f : Forest) {v a : Nat} (h : f.above v = some a) :
    ∃ r, (f.compress v).above v = some r := by
  induction v using Nat.strongRecOn generalizing a with
  | ind v ih =>
    rw [compress, h]
    by_cases hcond : a < v ∧ (f.above a).isSome
    · obtain ⟨b, hb⟩ := Option.isSome_iff_exists.1 hcond.2
      obtain ⟨r, hr⟩ := ih a hcond.1 hb
      have hva : (f.compress a).above v = some a := (f.above_compress_of_lt hcond.1).trans h
      refine ⟨r, ?_⟩
      simp only [if_pos hcond]
      rw [above_shorten (lt_size_of_above hva), if_pos rfl, hr]
    · simp only [if_neg hcond]
      exact ⟨a, h⟩

/-- **What holds of a forest holds of it after a path is shortened**, if it is kept where one link
takes the place of two that follow on each other. -/
theorem compress_induction {P : Forest → Prop} {f : Forest} (hf : P f)
    (hstep : ∀ (g : Forest) (v a r : Nat), P g → g.above v = some a → g.above a = some r →
      P (g.shorten v a)) (v : Nat) : P (f.compress v) := by
  induction v using Nat.strongRecOn with
  | ind v ih =>
    rw [compress]
    split
    · exact hf
    · rename_i a ha
      split
      · rename_i hcond
        obtain ⟨b, hb⟩ := Option.isSome_iff_exists.1 hcond.2
        obtain ⟨r, hr⟩ := f.exists_above_compress hb
        exact hstep _ v a r (ih a hcond.1) ((f.above_compress_of_lt hcond.1).trans ha) hr
      · exact hf

theorem semi_compress (f : Forest) (v : Nat) : (f.compress v).semi = f.semi :=
  compress_induction (P := fun g => g.semi = f.semi) rfl (fun _ _ _ _ h _ _ => h) v

theorem semi_eval (f : Forest) (v : Nat) : (f.eval v).2.semi = f.semi := by
  unfold eval
  split
  · exact f.semi_compress v
  · rfl

theorem semiOf_eval (f : Forest) (v : Nat) : (f.eval v).2.semiOf = f.semiOf := by
  unfold semiOf
  rw [semi_eval]

end Forest

/-! ## Any order of links -/

/-- The link of `v` leads to `a`, which stands above it; `v` remembers the best of the numbers that
the link passes over, and these are linked. -/
structure Spans (up : Nat → Nat) (linked : Nat → Prop) (f : Forest) (v a : Nat) : Prop where
  above : f.above v = some a
  best : BestOn up f.semiOf v a (f.bestOf v)
  passed : ∀ u, Above up u v → a < u → linked u

/-- The forest `f` of `count` numbers stands for links that lead `up`, one for each of the numbers
that are `linked`. -/
structure Represents (up : Nat → Nat) (linked : Nat → Prop) (count : Nat) (f : Forest) : Prop where
  size_best : f.best.size = count
  size_ancestor : f.ancestor.size = count
  above_free : ∀ v, ¬linked v → f.above v = none
  bestOf_free : ∀ v, ¬linked v → f.bestOf v = v
  link : ∀ v, linked v → ∃ a, Spans up linked f v a

namespace Represents

variable {count : Nat} {up : Nat → Nat} {linked : Nat → Prop} {f : Forest}

theorem isolated (up : Nat → Nat) (hl : ∀ v, ¬linked v) :
    Represents up linked count (.isolated count) where
  size_best := by simp [Forest.isolated]
  size_ancestor := by simp [Forest.isolated]
  above_free v _ := by
    by_cases hv : v < count <;> simp [Forest.above, Forest.isolated, hv]
  bestOf_free v _ := by
    by_cases hv : v < count <;> simp [Forest.bestOf, Forest.isolated, hv]
  link v hv := absurd hv (hl v)

theorem linked_of_above (h : Represents up linked count f) {v a : Nat} (hv : f.above v = some a) :
    linked v := by
  refine Classical.byContradiction fun hnot => ?_
  rw [h.above_free v hnot] at hv
  cases hv

theorem spans_of_above (h : Represents up linked count f) {v a : Nat} (hv : f.above v = some a) :
    Spans up linked f v a := by
  obtain ⟨b, hb⟩ := h.link v (h.linked_of_above hv)
  obtain rfl : b = a := Option.some.inj (hb.above.symm.trans hv)
  exact hb

theorem lt_count (h : Represents up linked count f) {v : Nat} (hv : linked v) : v < count := by
  obtain ⟨a, ha⟩ := h.link v hv
  exact h.size_ancestor ▸ Forest.lt_size_of_above ha.above

/-- The semidominator of a number that is not linked does not matter. -/
theorem setSemi (h : Represents up linked count f) {v : Nat} (hv : ¬linked v) (s : Nat) :
    Represents up linked count (f.setSemi v s) where
  size_best := h.size_best
  size_ancestor := h.size_ancestor
  above_free := h.above_free
  bestOf_free := h.bestOf_free
  link x hx := by
    obtain ⟨a, ha⟩ := h.link x hx
    refine ⟨a, ha.above, ha.best.congr fun u hu hau => ?_, ha.passed⟩
    have hne : u ≠ v := fun heq => hv (heq ▸ ha.passed u hu hau)
    exact f.semiOf_setSemi_of_ne hne s

variable (hup : ∀ w, 0 < w → up w < w)
include hup

theorem lt_of_above (h : Represents up linked count f) {v a : Nat} (hv : f.above v = some a) :
    a < v := by
  have hspans := h.spans_of_above hv
  exact Nat.lt_of_lt_of_le hspans.best.lt (hspans.best.on.le hup)

/-- One more number is linked below its parent. -/
theorem addLink (h : Represents up linked count f) {v : Nat} (hv : ¬linked v) (hpos : 0 < v)
    (hc : v < count) :
    Represents up (fun u => linked u ∨ u = v) count (f.link (up v) v) := by
  have habove := Forest.above_link (f := f) (h.size_ancestor.symm ▸ hc) (up v)
  constructor
  case size_best => exact h.size_best
  case size_ancestor => exact (Array.size_setIfInBounds ..).trans h.size_ancestor
  case above_free =>
    intro x hx
    rw [not_or] at hx
    rw [habove, if_neg hx.2, h.above_free x hx.1]
  case bestOf_free => exact fun x hx => h.bestOf_free x fun hl => hx (.inl hl)
  case link =>
    intro x hx
    by_cases hxv : x = v
    · subst hxv
      -- the link to the parent passes over nothing but the number itself
      have hself : ∀ u, Above up u x → up x < u → u = x := by
        intro u hu hlt
        refine Classical.byContradiction fun hne => ?_
        have := (hu.of_ne hne).2.le hup
        omega
      have hbest : (f.link (up x) x).bestOf x = x := h.bestOf_free x hv
      refine ⟨up x, by rw [habove, if_pos rfl], ?_, fun u hu hlt => .inr (hself u hu hlt)⟩
      rw [hbest]
      exact ⟨.up hpos .self, hup x hpos, .self,
        fun u hu hlt => Nat.le_of_eq (by rw [hself u hu hlt])⟩
    · obtain ⟨a, ha⟩ := h.link x (hx.resolve_right hxv)
      exact ⟨a, by rw [habove, if_neg hxv, ha.above], ha.best,
        fun u hu hau => .inl (ha.passed u hu hau)⟩

/-- Where two links follow on each other, one link may pass over both. -/
theorem shorten (h : Represents up linked count f) {v a r : Nat} (hv : f.above v = some a)
    (ha : f.above a = some r) : Represents up linked count (f.shorten v a) := by
  have lv := h.spans_of_above hv
  have la := h.spans_of_above ha
  have hvc := h.lt_count (h.linked_of_above hv)
  have habove := Forest.above_shorten (f := f) (h.size_ancestor.symm ▸ hvc) a
  have hbest := Forest.bestOf_shorten (f := f) (h.size_best.symm ▸ hvc) a
  have hne : ∀ x, ¬linked x → x ≠ v := fun x hx heq => hx (heq ▸ h.linked_of_above hv)
  constructor
  case size_best =>
    rw [Forest.shorten]
    split
    · rw [Array.size_setIfInBounds, h.size_best]
    · exact h.size_best
  case size_ancestor => rw [Forest.shorten, Array.size_setIfInBounds, h.size_ancestor]
  case above_free =>
    intro x hx
    rw [habove, if_neg (hne x hx), h.above_free x hx]
  case bestOf_free =>
    intro x hx
    rw [hbest, if_neg (hne x hx), h.bestOf_free x hx]
  case link =>
    intro x hx
    by_cases hxv : x = v
    · subst hxv
      refine ⟨r, by rw [habove, if_pos rfl, ha], ?_, ?_⟩
      · rw [hbest, if_pos rfl, Forest.semiOf_shorten]
        exact lv.best.join hup la.best
      · intro u hu hru
        rcases Nat.lt_or_ge a u with hau | hua
        · exact lv.passed u hu hau
        · exact la.passed u (hu.of_le hup lv.best.top hua) hru
    · obtain ⟨b, hb⟩ := h.link x hx
      refine ⟨b, by rw [habove, if_neg hxv, hb.above], ?_, hb.passed⟩
      rw [hbest, if_neg hxv, Forest.semiOf_shorten]
      exact hb.best

theorem compress (h : Represents up linked count f) (v : Nat) :
    Represents up linked count (f.compress v) :=
  Forest.compress_induction h (fun _ _ _ _ hg hv ha => hg.shorten hup hv ha) v

/-- Shortening the path above a linked number links it to a number that is not linked. -/
theorem exists_root (h : Represents up linked count f) {v : Nat} (hv : linked v) :
    ∃ r, ¬linked r ∧ (f.compress v).above v = some r := by
  induction v using Nat.strongRecOn with
  | ind v ih =>
    obtain ⟨a, ha⟩ := h.link v hv
    have hav : a < v := h.lt_of_above hup ha.above
    by_cases hla : linked a
    · obtain ⟨b, hb⟩ := h.link a hla
      obtain ⟨r, hr, har⟩ := ih a hav hla
      have hva : (f.compress a).above v = some a := (f.above_compress_of_lt hav).trans ha.above
      have hc : f.compress v = (f.compress a).shorten v a := by
        rw [Forest.compress, ha.above]
        simp [hav, hb.above]
      refine ⟨r, hr, ?_⟩
      rw [hc, Forest.above_shorten (Forest.lt_size_of_above hva), if_pos rfl, har]
    · have hc : f.compress v = f := by
        rw [Forest.compress, ha.above]
        simp [h.above_free a hla]
      exact ⟨a, hla, by rw [hc, ha.above]⟩

/-- Asking changes nothing about what the forest stands for. -/
theorem asked (h : Represents up linked count f) (v : Nat) :
    Represents up linked count (f.eval v).2 := by
  unfold Forest.eval
  split
  · exact h.compress hup v
  · exact h

/-- **What the forest answers.** Asked for a linked number, it names the one with the smallest
semidominator on the way from there up to a number that is not linked. -/
theorem eval (h : Represents up linked count f) {v : Nat} (hv : linked v) :
    ∃ r, ¬linked r ∧ (f.eval v).2.above v = some r ∧ (f.eval v).1 = (f.eval v).2.bestOf v ∧
      BestOn up f.semiOf v r (f.eval v).1 := by
  obtain ⟨a, ha⟩ := h.link v hv
  obtain ⟨r, hr, hvr⟩ := h.exists_root hup hv
  have hasked : f.eval v = ((f.compress v).bestOf v, f.compress v) := by
    rw [Forest.eval, ha.above]
    rfl
  have hspans := (h.asked hup v).spans_of_above (by rw [hasked]; exact hvr)
  refine ⟨r, hr, hspans.above, by rw [hasked], ?_⟩
  have hbest := hspans.best
  rw [f.semiOf_eval] at hbest
  rwa [hasked] at hbest ⊢

end Represents

/-! ## Numbers linked from the largest down -/

/-- The numbers larger than `w` are linked into the forest `f`, the others have no semidominator
yet. -/
structure Linked (up : Nat → Nat) (count w : Nat) (f : Forest) : Prop
    extends Represents up (fun v => w < v ∧ v < count) count f where
  size_semi : f.semi.size = count
  semiOf_free : ∀ v ≤ w, f.semiOf v = v

namespace Linked

variable {count w : Nat} {up : Nat → Nat} {f : Forest}

/-- Nothing is linked at first. -/
theorem isolated (up : Nat → Nat) (hw : count ≤ w + 1) : Linked up count w (.isolated count) where
  toRepresents := .isolated up fun v => by omega
  size_semi := by simp [Forest.isolated]
  semiOf_free v _ := by
    by_cases hv : v < count <;> simp [Forest.semiOf, Forest.isolated, hv]

variable (hup : ∀ w, 0 < w → up w < w)
include hup

/-- Asked for a linked number, the forest names the one with the smallest semidominator among the
linked numbers from there upwards. -/
theorem eval (h : Linked up count w f) {v : Nat} (hv : w < v) (hvc : v < count) :
    Linked up count w (f.eval v).2 ∧ (f.eval v).2.semiOf = f.semiOf ∧
      w < (f.eval v).1 ∧ Above up (f.eval v).1 v ∧
      ∀ u, w < u → Above up u v → f.semiOf (f.eval v).1 ≤ f.semiOf u := by
  have hasked := h.asked hup v
  obtain ⟨r, hr, hvr, hbest, hleast⟩ := h.toRepresents.eval hup ⟨hv, hvc⟩
  have hrv := hasked.lt_of_above hup hvr
  have hsemi := f.semiOf_eval v
  have hpassed := (hasked.spans_of_above hvr).passed _ hleast.on hleast.lt
  refine ⟨⟨hasked, ?_, ?_⟩, hsemi, hpassed.1, hleast.on, fun u hu huv => ?_⟩
  · rw [f.semi_eval, h.size_semi]
  · rw [hsemi]
    exact h.semiOf_free
  · exact hleast.least u huv (by omega)

/-- The next number is linked below its parent once its semidominator is known. -/
theorem linkNext (h : Linked up count (w + 1) f) (hc : w + 1 < count) (s : Nat) :
    Linked up count w ((f.setSemi (w + 1) s).link (up (w + 1)) (w + 1)) := by
  have hfree : ¬(w + 1 < w + 1 ∧ w + 1 < count) := by omega
  have hadded := (h.setSemi hfree s).addLink hup hfree (by omega) hc
  have hlinked : (fun v => (w + 1 < v ∧ v < count) ∨ v = w + 1) = fun v => w < v ∧ v < count := by
    funext v
    exact propext (by omega)
  refine ⟨hlinked ▸ hadded, (Array.size_setIfInBounds ..).trans h.size_semi, fun v hv => ?_⟩
  exact (f.semiOf_setSemi_of_ne (by omega) s).trans (h.semiOf_free v (by omega))

end Linked
end Dominance
end AdventureLogic
