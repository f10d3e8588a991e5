import TreeEdit.Guard.Basic

/-!
# Nested use of a guard

A program opens levels, with a body that runs only if the level could be opened, asks for the budget
and counts edits. `Guard.run` carries it out and notes what happened at each step.
-/

namespace TreeEdit.Guard

/-- One step of a program. -/
inductive Act
  /-- Open a level, run the body inside it and close it. -/
  | enter (place : Option StableId) (body : List Act)
  /-- Ask for the budget. -/
  | budget (place : Option StableId)
  /-- Count an edit. -/
  | commit
  /-- Only look at the counts. -/
  | look

/-- What a step did. -/
inductive Event
  /-- A level was opened; now so many are open. -/
  | entered (depth : Nat)
  /-- A level was closed; now so many are open. -/
  | left (depth : Nat)
  /-- There is budget left. -/
  | granted
  /-- The step was refused. -/
  | refused (e : Error)
  /-- An edit was counted; now there are so many. -/
  | committed (count : Nat)
  /-- The limits were read. -/
  | looked (limits : Limits)

/-- What a step did, and the counts right after it. -/
structure Entry where
  event : Event
  statistics : Statistics

/-- Note an event with the present counts. -/
def note (g : Guard) (event : Event) : Entry :=
  ⟨event, g.statistics⟩

mutual

/-- Carry out one step. -/
def runAct (g : Guard) : Act → Guard × List Entry
  | .enter place body =>
    match g.enter place with
    | .error e => (g, [g.note (.refused e)])
    | .ok inner =>
      let (last, entries) := inner.run body
      let outer := last.leave
      (outer, inner.note (.entered inner.depth) :: entries ++ [outer.note (.left outer.depth)])
  | .budget place =>
    match g.checkBudget place with
    | .error e => (g, [g.note (.refused e)])
    | .ok () => (g, [g.note .granted])
  | .commit => (g.commit, [g.commit.note (.committed g.commit.modifications)])
  | .look => (g, [g.note (.looked g.limits)])

/-- Carry out the steps of a program in order. -/
def run (g : Guard) : List Act → Guard × List Entry
  | [] => (g, [])
  | act :: acts =>
    let (next, entries) := g.runAct act
    let (last, further) := next.run acts
    (last, entries ++ further)

end

end TreeEdit.Guard
