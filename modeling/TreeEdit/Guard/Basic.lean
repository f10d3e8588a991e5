import TreeEdit.Error

/-!
# Limits on depth and number of edits

A `Guard` belongs to one editor. It counts the edits made and the levels of nesting held open, and
refuses to go beyond its limits. A refusal leaves every count as it was.
-/

namespace TreeEdit

/-- The limits of a guard. -/
structure Limits where
  maxDepth : Nat
  maxModifications : Nat
  deriving DecidableEq, Repr

namespace Limits

/-- The limits of one editor. -/
def single : Limits := ⟨1000, 10000⟩

/-- The limits of all overlays of a view together. -/
def batch : Limits := ⟨2000, 50000⟩

end Limits

/-- The counts of a guard and its limits. -/
structure Statistics where
  modifications : Nat
  depth : Nat
  deepest : Nat
  limits : Limits
  deriving DecidableEq, Repr

/-- The share of the allowed edits that has been used. A limit of zero counts as used up. -/
def Statistics.ratio (s : Statistics) : Float :=
  if s.limits.maxModifications = 0 then 1.0
  else s.modifications.toUInt64.toFloat / s.limits.maxModifications.toUInt64.toFloat

/-- The counts of one editor. -/
structure Guard where
  limits : Limits := .single
  /-- The levels held open. -/
  depth : Nat := 0
  /-- The largest number of levels ever held open. -/
  deepest : Nat := 0
  /-- The edits made. -/
  modifications : Nat := 0
  deriving DecidableEq, Repr

namespace Guard

/-- Open a level, unless the limit on the depth is reached. -/
def enter (g : Guard) (place : Option StableId) : Verdict Guard :=
  if g.depth + 1 > g.limits.maxDepth then
    .error (.limit .recursionDepth (g.depth + 1) g.limits.maxDepth place)
  else .ok { g with depth := g.depth + 1, deepest := max g.deepest (g.depth + 1) }

/-- Close a level. -/
def leave (g : Guard) : Guard :=
  { g with depth := g.depth - 1 }

/-- Refuse if no further edit is allowed. -/
def checkBudget (g : Guard) (place : Option StableId) : Verdict Unit :=
  if g.modifications + 1 > g.limits.maxModifications then
    .error (.limit .modifications (g.modifications + 1) g.limits.maxModifications place)
  else .ok ()

/-- Count an edit. -/
def commit (g : Guard) : Guard :=
  { g with modifications := g.modifications + 1 }

/-- The counts of the guard. -/
def statistics (g : Guard) : Statistics :=
  ⟨g.modifications, g.depth, g.deepest, g.limits⟩

variable {g g' : Guard} {place : Option StableId} {e : Error}

theorem enter_eq_ok_iff : g.enter place = .ok g' ↔ g.depth < g.limits.maxDepth ∧
    { g with depth := g.depth + 1, deepest := max g.deepest (g.depth + 1) } = g' := by
  rw [enter]
  split
  · next hfull => exact ⟨nofun, fun h => absurd h.1 (Nat.not_lt.2 (Nat.le_of_lt_succ hfull))⟩
  · next hroom =>
    rw [Except.ok.injEq]
    exact ⟨fun h => ⟨Nat.not_lt.1 hroom, h⟩, fun h => h.2⟩

theorem enter_eq_error_iff : g.enter place = .error e ↔ g.limits.maxDepth ≤ g.depth ∧
    .limit .recursionDepth (g.depth + 1) g.limits.maxDepth place = e := by
  rw [enter]
  split
  · next hfull =>
    rw [Except.error.injEq]
    exact ⟨fun h => ⟨Nat.le_of_lt_succ hfull, h⟩, fun h => h.2⟩
  · next hroom => exact ⟨nofun, fun h => absurd (Nat.lt_succ_of_le h.1) hroom⟩

theorem checkBudget_eq_ok_iff :
    g.checkBudget place = .ok () ↔ g.modifications < g.limits.maxModifications := by
  rw [checkBudget]
  split
  · next hspent => exact ⟨nofun, fun h => absurd h (Nat.not_lt.2 (Nat.le_of_lt_succ hspent))⟩
  · next hleft => exact ⟨fun _ => Nat.not_lt.1 hleft, fun _ => rfl⟩

theorem checkBudget_eq_error_iff :
    g.checkBudget place = .error e ↔ g.limits.maxModifications ≤ g.modifications ∧
      .limit .modifications (g.modifications + 1) g.limits.maxModifications place = e := by
  rw [checkBudget]
  split
  · next hspent =>
    rw [Except.error.injEq]
    exact ⟨fun h => ⟨Nat.le_of_lt_succ hspent, h⟩, fun h => h.2⟩
  · next hleft => exact ⟨nofun, fun h => absurd (Nat.lt_succ_of_le h.1) hleft⟩

end Guard

end TreeEdit
