import TreeEdit.Guard.Basic

/-!
# Limits on all overlays of a view

A `SharedGuard` counts the edits of every overlay of one view and remembers the deepest path. Each
of its two operations is one indivisible step.
-/

namespace TreeEdit

/-- The counts of all overlays of a view. -/
structure SharedGuard where
  limits : Limits := .batch
  modifications : Nat := 0
  deepest : Nat := 0
  deriving DecidableEq, Repr

namespace SharedGuard

/-- Reserve one edit, unless all are taken. -/
def reserve (g : SharedGuard) (place : Option StableId) : Verdict SharedGuard :=
  if g.modifications < g.limits.maxModifications then
    .ok { g with modifications := g.modifications + 1 }
  else .error (.limit .modifications (g.modifications + 1) g.limits.maxModifications place)

/-- Accept a path of the given length, unless it is too long, and remember the longest. -/
def admitDepth (g : SharedGuard) (depth : Nat) (place : Option StableId) : Verdict SharedGuard :=
  if depth > g.limits.maxDepth then
    .error (.limit .recursionDepth depth g.limits.maxDepth place)
  else .ok { g with deepest := max g.deepest depth }

/-- The counts of the guard. No level is ever held open. -/
def statistics (g : SharedGuard) : Statistics :=
  ⟨g.modifications, 0, g.deepest, g.limits⟩

end SharedGuard

end TreeEdit
