import Mathlib
import AdventureLogic.Proofs.Dominance.LinkForest
import AdventureLogic.Proofs.Dominance.Walk

/-!
# Shortening paths changes no answer

A forest is worked on call by call: the semidominator of a number is set, a
number is linked below another, a question is asked. Calls are orderly if each
number is linked at most once, below a smaller one, and keeps its semidominator
from then on; questions may be asked at any time (`Forest.Orderly`). The
computation of semidominators makes such calls
(`Numbering.exists_calls_semidominators`).

After orderly calls the forest still stands for the links as they were made,
whatever paths have been shortened. A linked number remembers, of the best
numbers that its link passes over, the one that is nearest (`Recalls`); so the
answer to a question is determined by the links and the semidominators alone,
and the questions asked before do not matter.

A path is shortened in two loops: the first collects the numbers on it, the
second goes back from the top. Links lead to smaller numbers, so the first loop
comes to an end (`Forest.Collects`).

Key definitions: `Forest.Call`, `Forest.Orderly`, `Forest.OnPath`,
`Forest.Nearest`, `Recalls`. Key theorems: `Recalls.shorten`,
`Recalls.performAll`, `Forest.exists_collects`,
`Forest.compression_keeps_answers`.
-/

namespace AdventureLogic
namespace Dominance
namespace Forest

/-! ## Calls -/

/-- What a forest can be told or asked. -/
inductive Call where
  /-- Sets the semidominator of a number. -/
  | setSemi (v s : Nat)
  /-- Links a number below a parent. -/
  | link (parent v : Nat)
  /-- Asks for the best number from `v` upwards. -/
  | eval (v : Nat)
  deriving DecidableEq, Inhabited

namespace Call

/-- Whether a call is a question. -/
def isEval : Call → Bool
  | .eval _ => true
  | _ => false

/-- The parent below which a call links `v`. -/
def parent? (v : Nat) : Call → Option Nat
  | .link parent u => if u = v then some parent else none
  | _ => none

end Call

/-- The forest after a call. -/
def perform (f : Forest) : Call → Forest
  | .setSemi v s => f.setSemi v s
  | .link parent v => f.link parent v
  | .eval v => (f.eval v).2

/-- The forest after a sequence of calls. -/
def performAll (f : Forest) (calls : List Call) : Forest := calls.foldl perform f

/-- The parent below which calls have linked `v`. -/
def parentIn (calls : List Call) (v : Nat) : Option Nat := calls.findSome? (Call.parent? v)

/-- Calls without the questions. -/
def unasked (calls : List Call) : List Call := calls.filter fun c => !c.isEval

/-- Each number is linked at most once, below a smaller one, and its semidominator does not change
any more. -/
inductive Orderly (count : Nat) : List Call → Prop where
  | nil : Orderly count []
  | setSemi {calls : List Call} {v : Nat} (s : Nat) (h : Orderly count calls)
    (hv : parentIn calls v = none) : Orderly count (calls ++ [.setSemi v s])
  | link {calls : List Call} {p v : Nat} (h : Orderly count calls) (hv : parentIn calls v = none)
    (hp : p < v) (hc : v < count) : Orderly count (calls ++ [.link p v])
  | eval {calls : List Call} (v : Nat) (h : Orderly count calls) :
    Orderly count (calls ++ [.eval v])

@[simp] theorem performAll_concat (f : Forest) (calls : List Call) (c : Call) :
    f.performAll (calls ++ [c]) = (f.performAll calls).perform c := by
  simp [performAll]

theorem performAll_append (f : Forest) (calls more : List Call) :
    f.performAll (calls ++ more) = (f.performAll calls).performAll more :=
  List.foldl_append

theorem parentIn_concat (calls : List Call) (c : Call) (v : Nat) :
    parentIn (calls ++ [c]) v = (parentIn calls v).or (c.parent? v) := by
  rw [parentIn, List.findSome?_append]
  simp [parentIn]

@[simp] theorem parentIn_concat_setSemi (calls : List Call) (v s : Nat) :
    parentIn (calls ++ [.setSemi v s]) = parentIn calls := by
  funext u
  simp [parentIn_concat, Call.parent?]

@[simp] theorem parentIn_concat_eval (calls : List Call) (v : Nat) :
    parentIn (calls ++ [.eval v]) = parentIn calls := by
  funext u
  simp [parentIn_concat, Call.parent?]

theorem parentIn_concat_link (calls : List Call) (p v u : Nat) :
    parentIn (calls ++ [.link p v]) u = (parentIn calls u).or (if v = u then some p else none) :=
  parentIn_concat calls _ u

/-- Orderly calls link numbers below smaller ones. -/
theorem Orderly.parent_lt {count : Nat} {calls : List Call} (h : Orderly count calls) {v p : Nat}
    (hv : parentIn calls v = some p) : p < v := by
  induction h with
  | nil => cases hv
  | setSemi s h _ ih => exact ih (by simpa using hv)
  | @link calls q u h _ hq _ ih =>
    rw [parentIn_concat_link] at hv
    cases hold : parentIn calls v with
    | some r =>
      rw [hold] at hv
      cases hv
      exact ih hold
    | none =>
      by_cases hu : u = v
      · simp only [hold, if_pos hu, Option.none_or, Option.some.injEq] at hv
        omega
      · simp [hold, hu] at hv
  | eval u h ih => exact ih (by simpa using hv)

end Forest

/-! ## Which number is remembered -/

/-- The forest stands for the links, and a linked number remembers the nearest of the best numbers
that its link passes over: those on the way to it are worse. -/
structure Recalls (up : Nat → Nat) (linked : Nat → Prop) (count : Nat) (f : Forest) : Prop
    extends Represents up linked count f where
  nearest : ∀ v a u, f.above v = some a → Above up u v → f.bestOf v < u →
    f.semiOf (f.bestOf v) < f.semiOf u

namespace Recalls

variable {count : Nat} {up : Nat → Nat} {linked : Nat → Prop} {f : Forest}

theorem isolated (up : Nat → Nat) (hl : ∀ v, ¬linked v) :
    Recalls up linked count (.isolated count) := by
  have hrep : Represents up linked count (.isolated count) := .isolated up hl
  exact ⟨hrep, fun v a u hv _ _ => absurd (hrep.linked_of_above hv) (hl v)⟩

theorem setSemi (h : Recalls up linked count f) {v : Nat} (hv : ¬linked v) (s : Nat) :
    Recalls up linked count (f.setSemi v s) := by
  refine ⟨h.toRepresents.setSemi hv s, fun x a u hx hu hlt => ?_⟩
  have hspans := h.spans_of_above hx
  have hsame : ∀ y, linked y → (f.setSemi v s).semiOf y = f.semiOf y := fun y hy =>
    f.semiOf_setSemi_of_ne (fun heq : y = v => hv (heq ▸ hy)) s
  have hbest : linked (f.bestOf x) := hspans.passed _ hspans.best.on hspans.best.lt
  have hlinked : linked u := hspans.passed u hu (Nat.lt_trans hspans.best.lt hlt)
  show (f.setSemi v s).semiOf (f.bestOf x) < (f.setSemi v s).semiOf u
  rw [hsame _ hbest, hsame u hlinked]
  exact h.nearest x a u hx hu hlt

variable (hup : ∀ w, 0 < w → up w < w)
include hup

theorem addLink (h : Recalls up linked count f) {v : Nat} (hv : ¬linked v) (hpos : 0 < v)
    (hc : v < count) :
    Recalls up (fun u => linked u ∨ u = v) count (f.link (up v) v) := by
  refine ⟨h.toRepresents.addLink hup hv hpos hc, fun x a u hx hu hlt => ?_⟩
  by_cases hxv : x = v
  · -- the number itself is remembered, and nothing is nearer
    have hbest : (f.link (up v) v).bestOf x = x := hxv ▸ h.bestOf_free v hv
    have hle := hu.le hup
    omega
  · have hsize : v < f.ancestor.size := h.size_ancestor.symm ▸ hc
    rw [Forest.above_link hsize, if_neg hxv] at hx
    exact h.nearest x a u hx hu hlt

/-- Where one link takes the place of two, the number takes over what the upper link remembers only
if that is better than what it remembers itself. -/
theorem shorten (h : Recalls up linked count f) {v a r : Nat} (hv : f.above v = some a)
    (ha : f.above a = some r) : Recalls up linked count (f.shorten v a) := by
  have hspans := h.spans_of_above hv
  have hvc : v < count := h.lt_count (h.linked_of_above hv)
  have hbest := Forest.bestOf_shorten (f := f) (h.size_best.symm ▸ hvc) a
  refine ⟨h.toRepresents.shorten hup hv ha, fun x b u hx hu hlt => ?_⟩
  rw [Forest.semiOf_shorten]
  by_cases hxv : x = v
  · subst hxv
    rw [hbest, if_pos rfl] at hlt ⊢
    by_cases hbetter : f.semiOf (f.bestOf a) < f.semiOf (f.bestOf x)
    · rw [if_pos hbetter] at hlt ⊢
      rcases Nat.lt_or_ge a u with hau | hua
      · exact Nat.lt_of_lt_of_le hbetter (hspans.best.least u hu hau)
      · exact h.nearest a r u ha (hu.of_le hup hspans.best.top hua) hlt
    · rw [if_neg hbetter] at hlt ⊢
      exact h.nearest x a u hv hu hlt
  · rw [hbest, if_neg hxv] at hlt ⊢
    rw [Forest.above_shorten_of_ne f hxv] at hx
    exact h.nearest x b u hx hu hlt

theorem asked (h : Recalls up linked count f) (v : Nat) :
    Recalls up linked count (f.eval v).2 := by
  unfold Forest.eval
  split
  · exact Forest.compress_induction h (fun _ _ _ _ hg hv ha => hg.shorten hup hv ha) v
  · exact h

/-- **What orderly calls leave.** The links are those that have been made, of numbers that `up`
leads to their parents; nothing is said about where it leads from others. -/
theorem performAll {calls : List Forest.Call} (h : Forest.Orderly count calls)
    (hparent : ∀ v p, Forest.parentIn calls v = some p → up v = p) :
    Recalls up (fun v => (Forest.parentIn calls v).isSome) count
      ((Forest.isolated count).performAll calls) := by
  induction h with
  | nil => exact isolated up fun v hv => by cases hv
  | @setSemi calls v s h hv ih =>
    rw [Forest.performAll_concat, Forest.parentIn_concat_setSemi] at *
    exact (ih hparent).setSemi (by simp [hv]) s
  | @link calls p v h hv hp hc ih =>
    have hold : ∀ u q, Forest.parentIn calls u = some q → up u = q := fun u q hu =>
      hparent u q (by rw [Forest.parentIn_concat_link, hu, Option.some_or])
    have hpv : up v = p := hparent v p (by simp [Forest.parentIn_concat_link, hv])
    have hlinked : (fun u => (Forest.parentIn (calls ++ [.link p v]) u).isSome = true) =
        fun u => (Forest.parentIn calls u).isSome = true ∨ u = v := by
      funext u
      rw [Forest.parentIn_concat_link]
      by_cases hu : v = u
      · simp [hu]
      · simp [hu, Ne.symm hu]
    have hfree : ¬(Forest.parentIn calls v).isSome = true := by simp [hv]
    rw [Forest.performAll_concat, hlinked, Forest.perform, ← hpv]
    exact (ih hold).addLink hup hfree (by omega) hc
  | @eval calls v h ih =>
    rw [Forest.performAll_concat, Forest.parentIn_concat_eval] at *
    exact (ih hparent).asked hup v

end Recalls

/-! ## What is answered -/

namespace Forest

/-- `u` stands on the path of links from a number up to the root of its tree, which does not
count. -/
inductive OnPath (parent : Nat → Option Nat) (u : Nat) : Nat → Prop where
  | self {p : Nat} (h : parent u = some p) : OnPath parent u u
  | up {v p : Nat} (hv : parent v = some p) (h : OnPath parent u p) : OnPath parent u v

/-- `b` has the smallest semidominator on the path from `v` up to the root of its tree; of several
such numbers it is the nearest to `v`, which is the largest. -/
structure Nearest (parent : Nat → Option Nat) (semi : Nat → Nat) (v b : Nat) : Prop where
  on : OnPath parent b v
  least : ∀ u, OnPath parent u v → semi b ≤ semi u
  nearest : ∀ u, OnPath parent u v → semi u = semi b → u ≤ b

theorem Nearest.unique {parent : Nat → Option Nat} {semi : Nat → Nat} {v b c : Nat}
    (hb : Nearest parent semi v b) (hc : Nearest parent semi v c) : b = c := by
  have hsemi : semi b = semi c := Nat.le_antisymm (hb.least c hc.on) (hc.least b hb.on)
  exact Nat.le_antisymm (hc.nearest b hb.on hsemi) (hb.nearest c hc.on hsemi.symm)

/-- Going up by links, where numbers that are not linked lead to 0. -/
theorem onPath_iff {parent : Nat → Option Nat} (hlt : ∀ v p, parent v = some p → p < v)
    {u v : Nat} :
    OnPath parent u v ↔ Above (fun w => (parent w).getD 0) u v ∧ (parent u).isSome := by
  constructor
  · intro h
    induction h with
    | self hu => exact ⟨.self, by simp [hu]⟩
    | @up v p hv _ ih =>
      have hpv := hlt v p hv
      refine ⟨.up (by omega) ?_, ih.2⟩
      simp only [hv, Option.getD_some]
      exact ih.1
  · rintro ⟨h, hu⟩
    obtain ⟨q, hq⟩ := Option.isSome_iff_exists.1 hu
    induction h with
    | self => exact .self hq
    | @up w hw h ih =>
      cases hp : parent w with
      | some p =>
        simp only [hp, Option.getD_some] at h ih
        exact .up hp ih
      | none =>
        simp only [hp, Option.getD_none] at h
        have hqu := hlt u q hq
        have hzero := Above.zero_iff.1 h
        omega

variable {count : Nat} {calls : List Call}

theorem Orderly.getD_lt (h : Orderly count calls) (w : Nat) (hw : 0 < w) :
    (parentIn calls w).getD 0 < w := by
  cases hp : parentIn calls w with
  | some p => exact h.parent_lt hp
  | none => exact hw

theorem Orderly.recalls (h : Orderly count calls) :
    Recalls (fun w => (parentIn calls w).getD 0) (fun v => (parentIn calls v).isSome) count
      ((isolated count).performAll calls) :=
  .performAll h.getD_lt h fun v p hv => by rw [hv, Option.getD_some]

/-- A number that is not linked is the answer itself. -/
theorem Orderly.eval_of_none (h : Orderly count calls) {v : Nat} (hv : parentIn calls v = none) :
    (((isolated count).performAll calls).eval v).1 = v := by
  have habove := h.recalls.above_free v (by simp [hv])
  simp [Forest.eval, habove]

/-- A linked number gets the nearest of the best numbers for an answer. -/
theorem Orderly.nearest_eval (h : Orderly count calls) {v : Nat}
    (hv : (parentIn calls v).isSome) :
    Nearest (parentIn calls) ((isolated count).performAll calls).semiOf v
      (((isolated count).performAll calls).eval v).1 := by
  have hrecalls := h.recalls
  generalize (isolated count).performAll calls = f at hrecalls ⊢
  have hasked := hrecalls.asked h.getD_lt v
  obtain ⟨r, hr, hvr, hbest, hleast⟩ := hrecalls.toRepresents.eval h.getD_lt hv
  have honPath := fun u => onPath_iff (u := u) (v := v) fun w p hw => h.parent_lt hw
  have hnearest := fun u => hasked.nearest v r u hvr
  rw [← hbest, f.semiOf_eval] at hnearest
  refine ⟨(honPath _).2 ⟨hleast.on, ?_⟩, fun u hu => ?_, fun u hu hsame => ?_⟩
  · have hspans := hasked.spans_of_above hvr
    exact hspans.passed _ hleast.on hleast.lt
  · -- the root is not linked, and above it stands nothing that is
    obtain ⟨habove, hlinked⟩ := (honPath u).1 hu
    refine hleast.least u habove (Nat.lt_of_not_le fun hur => ?_)
    have hroot : OnPath (parentIn calls) u r :=
      (onPath_iff fun w p hw => h.parent_lt hw).2 ⟨habove.of_le h.getD_lt hleast.top hur, hlinked⟩
    cases hroot with
    | self hp => exact hr (by simp [hp])
    | up hp _ => exact hr (by simp [hp])
  · obtain ⟨habove, _⟩ := (honPath u).1 hu
    refine Nat.le_of_not_lt fun hlt => ?_
    have := hnearest u habove hlt
    omega

theorem unasked_concat (calls : List Call) (c : Call) :
    unasked (calls ++ [c]) = unasked calls ++ if c.isEval then [] else [c] := by
  cases hc : c.isEval <;> simp [unasked, hc]

/-- Without the questions, the same links are made and the same semidominators set. -/
theorem Orderly.unasked (h : Orderly count calls) :
    Orderly count (unasked calls) ∧ parentIn (Forest.unasked calls) = parentIn calls ∧
      ((isolated count).performAll (Forest.unasked calls)).semi =
        ((isolated count).performAll calls).semi := by
  induction h with
  | nil => exact ⟨.nil, rfl, rfl⟩
  | @setSemi calls v s h hv ih =>
    obtain ⟨hold, hparent, hsemi⟩ := ih
    have hcalls : Forest.unasked (calls ++ [.setSemi v s]) =
        Forest.unasked calls ++ [.setSemi v s] := unasked_concat calls _
    rw [hcalls]
    refine ⟨.setSemi s hold (hparent ▸ hv), ?_, ?_⟩
    · rw [parentIn_concat_setSemi, parentIn_concat_setSemi, hparent]
    · simp only [performAll_concat, perform, Forest.setSemi, hsemi]
  | @link calls p v h hv hp hc ih =>
    obtain ⟨hold, hparent, hsemi⟩ := ih
    have hcalls : Forest.unasked (calls ++ [.link p v]) = Forest.unasked calls ++ [.link p v] :=
      unasked_concat calls _
    rw [hcalls]
    refine ⟨.link hold (hparent ▸ hv) hp hc, ?_, ?_⟩
    · funext u
      rw [parentIn_concat_link, parentIn_concat_link, hparent]
    · simp only [performAll_concat, perform, Forest.link, hsemi]
  | @eval calls v h ih =>
    have hcalls : Forest.unasked (calls ++ [.eval v]) = Forest.unasked calls :=
      (unasked_concat calls _).trans (List.append_nil _)
    rw [hcalls, parentIn_concat_eval, performAll_concat, perform, semi_eval]
    exact ih

/-! ## How a path is shortened -/

/-- The loop that collects the path above a number, up to the number just below the root, comes to
an end, and `path` is what it has collected, from the bottom up. -/
inductive Collects (f : Forest) : Nat → List Nat → Prop where
  | root {v : Nat} (h : f.above v = none) : Collects f v []
  | top {v a : Nat} (h : f.above v = some a) (ha : f.above a = none) : Collects f v []
  | more {v a : Nat} {path : List Nat} (h : f.above v = some a) (ha : (f.above a).isSome)
    (hpath : Collects f a path) : Collects f v (v :: path)

/-- Lets the link of a number pass over the next one. -/
def cut (f : Forest) (v : Nat) : Forest :=
  match f.above v with
  | some a => f.shorten v a
  | none => f

/-- **Shortening comes to an end.** Where links lead to smaller numbers, the loop that collects the
path ends after at most as many turns as the number says, and shortening is to go back over the
path from the top down. -/
theorem exists_collects {f : Forest} (hf : ∀ v a, f.above v = some a → a < v) (v : Nat) :
    ∃ path, f.Collects v path ∧ path.length ≤ v ∧
      f.compress v = path.foldr (fun u g => g.cut u) f := by
  induction v using Nat.strongRecOn with
  | ind v ih =>
    cases hv : f.above v with
    | none =>
      refine ⟨[], .root hv, Nat.zero_le v, ?_⟩
      rw [compress, hv]
      rfl
    | some a =>
      have hav := hf v a hv
      cases ha : f.above a with
      | none =>
        refine ⟨[], .top hv ha, Nat.zero_le v, ?_⟩
        rw [compress, hv]
        simp [ha]
      | some b =>
        obtain ⟨path, hpath, hlength, hcompress⟩ := ih a hav
        refine ⟨v :: path, .more hv (by simp [ha]) hpath, ?_, ?_⟩
        · rw [List.length_cons]
          omega
        · -- the part above has been shortened first, which leaves the link of `v` alone
          have hlink : (f.compress a).above v = some a := (f.above_compress_of_lt hav).trans hv
          rw [compress, hv, List.foldr_cons, ← hcompress, cut, hlink]
          simp [hav, ha]

/-- **Shortening paths changes no answer.** After orderly calls, a number that is not linked is
itself the answer to a question; for a linked one it is the number with the smallest semidominator
on the path of links from there up to the root, the root not counted, and the nearest of several.
The answer is the same as if no question had been asked before. To shorten the path above a number
takes finitely many steps. -/
theorem compression_keeps_answers (count : Nat) (calls : List Call) (h : Orderly count calls)
    (v : Nat) :
    (parentIn calls v = none → (((isolated count).performAll calls).eval v).1 = v) ∧
    ((parentIn calls v).isSome →
      Nearest (parentIn calls) ((isolated count).performAll calls).semiOf v
        (((isolated count).performAll calls).eval v).1) ∧
    (((isolated count).performAll calls).eval v).1 =
      (((isolated count).performAll (unasked calls)).eval v).1 ∧
    ∃ path, ((isolated count).performAll calls).Collects v path ∧ path.length ≤ v ∧
      ((isolated count).performAll calls).compress v =
        path.foldr (fun u g => g.cut u) ((isolated count).performAll calls) := by
  refine ⟨h.eval_of_none, h.nearest_eval, ?_, exists_collects (fun u a hu => ?_) v⟩
  · obtain ⟨hquiet, hparent, hsemi⟩ := h.unasked
    cases hv : parentIn calls v with
    | none => rw [h.eval_of_none hv, hquiet.eval_of_none (hparent ▸ hv)]
    | some p =>
      have hsome : (parentIn calls v).isSome := by simp [hv]
      have hnearest := hquiet.nearest_eval (hparent ▸ hsome)
      have hsemiOf : ((isolated count).performAll (Forest.unasked calls)).semiOf =
          ((isolated count).performAll calls).semiOf := by
        unfold semiOf
        rw [hsemi]
      rw [hparent, hsemiOf] at hnearest
      exact (h.nearest_eval hsome).unique hnearest
  · exact h.recalls.lt_of_above h.getD_lt hu

/-- The path above 5 is shortened before 1 is linked, which makes it longer. The numbers 3 and 1
have the same semidominator. -/
def lateLink : List Call :=
  [.setSemi 5 2, .link 3 5, .setSemi 3 0, .link 1 3, .eval 5, .setSemi 1 0, .link 0 1, .eval 3]

theorem compression_keeps_answers_lateLink :
    Orderly 6 lateLink ∧ parentIn lateLink 5 = some 3 ∧ parentIn lateLink 4 = none ∧
      (((isolated 6).performAll lateLink).eval 5).1 = 3 ∧
      (((isolated 6).performAll lateLink).eval 4).1 = 4 ∧
      (((isolated 6).performAll (unasked lateLink)).eval 5).1 = 3 ∧
      Nearest (parentIn lateLink) ((isolated 6).performAll lateLink).semiOf 5 3 := by
  have h : Orderly 6 lateLink :=
    .eval 3 (.link (.setSemi 0 (.eval 5 (.link (.setSemi 0 (.link (.setSemi 2 .nil rfl) rfl
      (by decide) (by decide)) rfl) rfl (by decide) (by decide))) rfl) rfl (by decide) (by decide))
  have hanswer : (((isolated 6).performAll lateLink).eval 5).1 = 3 := by cbv
  obtain ⟨_, hnearest, hunasked, _⟩ := compression_keeps_answers 6 lateLink h 5
  obtain ⟨hself, _⟩ := compression_keeps_answers 6 lateLink h 4
  refine ⟨h, rfl, rfl, hanswer, hself rfl, hunasked ▸ hanswer, ?_⟩
  have hbest := hnearest rfl
  rwa [hanswer] at hbest

end Forest

/-! ## The calls that find the semidominators -/

namespace Numbering

open Forest (Orderly parentIn)

/-- The questions that are asked for the semidominator of `w`: what predecessors offer that are not
smaller. -/
def questions (w : Nat) (vs : List Nat) : List Forest.Call :=
  (vs.filter fun v => !decide (v < w)).map .eval

theorem leastOffer_questions (w : Nat) (vs : List Nat) : ∀ (f : Forest) (least : Nat),
    (leastOffer w f least vs).2 = f.performAll (questions w vs) := by
  induction vs with
  | nil => exact fun _ _ => rfl
  | cons v vs ih =>
    intro f least
    rw [leastOffer, offer]
    by_cases hv : v < w
    · simp [hv, ih, questions]
    · simp [hv, ih, questions, Forest.performAll, Forest.perform]

theorem orderly_questions {count w : Nat} {calls : List Forest.Call} (h : Orderly count calls)
    (vs : List Nat) : Orderly count (calls ++ questions w vs) ∧
      parentIn (calls ++ questions w vs) = parentIn calls := by
  unfold questions
  generalize vs.filter _ = asked
  induction asked using List.reverseRecOn with
  | nil => simpa using h
  | append_singleton asked v ih =>
    rw [List.map_append, ← List.append_assoc]
    exact ⟨.eval v ih.1, (Forest.parentIn_concat_eval _ v).trans ih.2⟩

variable {d : Numbering} {g : Graph}

/-- Settling a number is a sequence of orderly calls, the last of which links it to its parent. -/
theorem settle_orderly (hup : ∀ w, 0 < w → d.parentOf w < w) {w : Nat} {calls : List Forest.Call}
    (h : Orderly d.count calls) (hw : 0 < w) (hc : w < d.count) (hfree : parentIn calls w = none) :
    ∃ more, Orderly d.count more ∧
      d.settle g ((Forest.isolated d.count).performAll calls) w =
        (Forest.isolated d.count).performAll more ∧
      ∀ v, parentIn more v = if v = w then some (d.parentOf w) else parentIn calls v := by
  obtain ⟨hasked, hparent⟩ := orderly_questions h (w := w) (d.predecessors g w)
  have hfree' : parentIn (calls ++ questions w (d.predecessors g w)) w = none := by
    rw [hparent, hfree]
  refine ⟨_, .link (.setSemi (leastOffer w ((Forest.isolated d.count).performAll calls)
    (d.parentOf w) (d.predecessors g w)).1 hasked hfree') ?_ (hup w hw) hc, ?_, fun v => ?_⟩
  · rw [Forest.parentIn_concat_setSemi, hfree']
  · rw [Forest.performAll_concat, Forest.performAll_concat, Forest.performAll_append,
      ← leastOffer_questions w _ _ (d.parentOf w)]
    rfl
  · rw [Forest.parentIn_concat_link, Forest.parentIn_concat_setSemi, hparent]
    by_cases hv : v = w
    · simp [hv, hfree]
    · simp [hv, Ne.symm hv]

/-- Numbers are settled from `w` down by orderly calls, if the larger ones have been and no others
are linked. -/
theorem settleDown_orderly (hup : ∀ w, 0 < w → d.parentOf w < w) (w : Nat) :
    ∀ {calls : List Forest.Call}, w ≤ d.count - 1 → Orderly d.count calls →
      (∀ v, parentIn calls v = if w < v ∧ v < d.count then some (d.parentOf v) else none) →
      ∃ all, Orderly d.count all ∧
        d.settleDown g ((Forest.isolated d.count).performAll calls) w =
          (Forest.isolated d.count).performAll all ∧
        ∀ v, 0 < v → v < d.count → parentIn all v = some (d.parentOf v) := by
  induction w with
  | zero =>
    intro calls _ h hlinks
    exact ⟨calls, h, rfl, fun v hv hc => by simp [hlinks, hv, hc]⟩
  | succ w ih =>
    intro calls hw h hlinks
    have hfree : parentIn calls (w + 1) = none := by simp [hlinks]
    obtain ⟨more, hmore, hsettle, hparent⟩ :=
      settle_orderly (g := g) hup h (by omega) (by omega) hfree
    rw [settleDown, hsettle]
    refine ih (by omega) hmore fun v => ?_
    rw [hparent, hlinks]
    by_cases hv : v = w + 1
    · simp [hv, show w + 1 < d.count by omega]
    · simp [hv, show w + 1 < v ↔ w < v by omega]

/-- **The computation of semidominators makes orderly calls**, which link every number but the
root's below its parent in the walk. -/
theorem exists_calls_semidominators (g : Graph) :
    ∃ calls, Orderly (ofGraph g).count calls ∧
      (ofGraph g).semidominators g = (Forest.isolated (ofGraph g).count).performAll calls ∧
      ∀ v, 0 < v → v < (ofGraph g).count → parentIn calls v = some ((ofGraph g).parentOf v) :=
  settleDown_orderly g.depthFirst_ofGraph.up_lt _ (Nat.le_refl _) .nil
    fun _ => (if_neg (by omega)).symm

end Numbering
end Dominance
end AdventureLogic
