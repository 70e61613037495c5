/-!
# The link forest

While semidominators are computed, the nodes that are done hang together in a
forest: each of them is linked below its parent. The forest answers one
question: among a node and the nodes above it, up to but not including the
root of its tree, which has the smallest semidominator? Asking makes the path
shorter, so that asking again is cheap; each node remembers the best node on
the part that was cut out.

Nodes are numbered and links lead to smaller numbers, so every path upwards
ends.

Key definitions: `Forest.link`, `Forest.compress`, `Forest.eval`.
-/

namespace AdventureLogic
namespace Dominance

/-- A forest of numbered nodes. -/
structure Forest where
  /-- The semidominator of each node; itself as long as it is not known. -/
  semi : Array Nat
  /-- The best node on the part of the path above a node that was cut out. -/
  best : Array Nat
  /-- The node above, if there is one. -/
  ancestor : Array (Option Nat)
  deriving DecidableEq, Inhabited

namespace Forest

/-- The forest of `count` nodes without links. -/
def isolated (count : Nat) : Forest :=
  ⟨Array.range count, Array.range count, Array.replicate count none⟩

/-- The semidominator of a node. -/
def semiOf (f : Forest) (v : Nat) : Nat := f.semi.getD v v

/-- The best node known for a node. -/
def bestOf (f : Forest) (v : Nat) : Nat := f.best.getD v v

/-- The node above a node. -/
def above (f : Forest) (v : Nat) : Option Nat := f.ancestor.getD v none

/-- Sets the semidominator of a node. -/
def setSemi (f : Forest) (v s : Nat) : Forest := { f with semi := f.semi.setIfInBounds v s }

/-- Links a node below its parent. -/
def link (f : Forest) (parent v : Nat) : Forest :=
  { f with ancestor := f.ancestor.setIfInBounds v (some parent) }

/-- Cuts `a`, the node above `v`, out of the path. -/
def shorten (f : Forest) (v a : Nat) : Forest :=
  { f with
    best :=
      if f.semiOf (f.bestOf a) < f.semiOf (f.bestOf v) then f.best.setIfInBounds v (f.bestOf a)
      else f.best
    ancestor := f.ancestor.setIfInBounds v (f.above a) }

/-- Shortens the path above `v`, so that the root of the tree is right above it. -/
def compress (f : Forest) (v : Nat) : Forest :=
  match f.above v with
  | none => f
  | some a =>
    if a < v ∧ (f.above a).isSome then (compress f a).shorten v a else f
termination_by v
decreasing_by rename_i h; exact h.1

/-- The node with the smallest semidominator from `v` up to the root of its tree, which does not
count; `v` itself if it is a root. -/
def eval (f : Forest) (v : Nat) : Nat × Forest :=
  if (f.above v).isSome then
    let g := f.compress v
    (g.bestOf v, g)
  else (v, f)

end Forest
end Dominance
end AdventureLogic
