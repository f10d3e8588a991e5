import Mathlib.Logic.Function.Iterate
import Mathlib.Order.Bounds.Basic
import TreeEdit.Guard.Program

/-!
# Levels within levels

`Guard.run` goes through a program by recursion on its nesting. Here the program is gone through one
step at a time: a `Guard.Moment` holds, for each level that is open, what is left to do after it.
Both come to the same end with the same log (`Guard.iterate_next_run`), and so what one step does to
the counts (`Guard.Moment.Change`) adds up to what a program does. `Guard.levels_balanced` says of
every program what the counts are at each moment: the depth is the number of levels that are open,
inside a body it is within the limit, and in the end it is what it was.
-/

namespace TreeEdit.Guard

/-! ### One step at a time -/

/-- A program under way. -/
structure Moment where
  guard : Guard
  /-- What is left of the innermost body. -/
  rest : List Act
  /-- For each open level, what is left to do after it. The innermost level is the first. -/
  outer : List (List Act)
  /-- What has happened. -/
  log : List Entry

/-- Carry out the next step. A level is closed when its body is done. When the whole program is
done, nothing more happens. -/
def Moment.next : Moment → Moment
  | ⟨g, [], [], log⟩ => ⟨g, [], [], log⟩
  | ⟨g, [], rest :: outer, log⟩ =>
    ⟨g.leave, rest, outer, log ++ [g.leave.note (.left g.leave.depth)]⟩
  | ⟨g, .enter place body :: rest, outer, log⟩ =>
    match g.enter place with
    | .error e => ⟨g, rest, outer, log ++ [g.note (.refused e)]⟩
    | .ok inner => ⟨inner, body, rest :: outer, log ++ [inner.note (.entered inner.depth)]⟩
  | ⟨g, .budget place :: rest, outer, log⟩ =>
    match g.checkBudget place with
    | .error e => ⟨g, rest, outer, log ++ [g.note (.refused e)]⟩
    | .ok () => ⟨g, rest, outer, log ++ [g.note .granted]⟩
  | ⟨g, .commit :: rest, outer, log⟩ =>
    ⟨g.commit, rest, outer, log ++ [g.commit.note (.committed g.commit.modifications)]⟩
  | ⟨g, .look :: rest, outer, log⟩ => ⟨g, rest, outer, log ++ [g.note (.looked g.limits)]⟩

/-- A program after some steps. -/
def moment (g : Guard) (acts : List Act) (steps : Nat) : Moment :=
  Moment.next^[steps] ⟨g, acts, [], []⟩

variable {g inner : Guard} {place : Option StableId} {body rest : List Act}
  {outer : List (List Act)} {log : List Entry} {e : Error} {m m' : Moment}

theorem moment_succ (g : Guard) (acts : List Act) (steps : Nat) :
    g.moment acts (steps + 1) = (g.moment acts steps).next :=
  Function.iterate_succ_apply' ..

theorem Moment.next_enter_of_ok (h : g.enter place = .ok inner) :
    next ⟨g, .enter place body :: rest, outer, log⟩ =
      ⟨inner, body, rest :: outer, log ++ [inner.note (.entered inner.depth)]⟩ := by
  rw [next, h]

theorem Moment.next_enter_of_error (h : g.enter place = .error e) :
    next ⟨g, .enter place body :: rest, outer, log⟩ =
      ⟨g, rest, outer, log ++ [g.note (.refused e)]⟩ := by
  rw [next, h]

theorem Moment.next_budget_of_ok (h : g.checkBudget place = .ok ()) :
    next ⟨g, .budget place :: rest, outer, log⟩ =
      ⟨g, rest, outer, log ++ [g.note .granted]⟩ := by
  rw [next, h]

theorem Moment.next_budget_of_error (h : g.checkBudget place = .error e) :
    next ⟨g, .budget place :: rest, outer, log⟩ =
      ⟨g, rest, outer, log ++ [g.note (.refused e)]⟩ := by
  rw [next, h]

theorem runAct_enter_of_ok (h : g.enter place = .ok inner) :
    g.runAct (.enter place body) = ((inner.run body).1.leave,
      inner.note (.entered inner.depth) :: (inner.run body).2 ++
        [(inner.run body).1.leave.note (.left (inner.run body).1.leave.depth)]) := by
  rw [runAct, h]

theorem runAct_enter_of_error (h : g.enter place = .error e) :
    g.runAct (.enter place body) = (g, [g.note (.refused e)]) := by
  rw [runAct, h]

theorem run_cons (g : Guard) (act : Act) (acts : List Act) :
    g.run (act :: acts) = (((g.runAct act).1.run acts).1,
      (g.runAct act).2 ++ ((g.runAct act).1.run acts).2) := by
  rw [run]

mutual

/-- What is carried out at once takes as many single steps as it leaves entries in the log. -/
theorem iterate_next_runAct (g : Guard) (act : Act) (rest : List Act) (outer : List (List Act))
    (log : List Entry) :
    Moment.next^[(g.runAct act).2.length] ⟨g, act :: rest, outer, log⟩ =
      ⟨(g.runAct act).1, rest, outer, log ++ (g.runAct act).2⟩ := by
  cases act with
  | enter place body =>
    cases henter : g.enter place with
    | error e =>
      rw [runAct_enter_of_error henter]
      exact Moment.next_enter_of_error henter
    | ok inner =>
      -- one step opens the level, the body is run with nothing after it, and one step closes it
      have hbody := iterate_next_run inner body [] (rest :: outer)
        (log ++ [inner.note (.entered inner.depth)])
      rw [List.append_nil] at hbody
      rw [runAct_enter_of_ok henter, List.length_append, List.length_singleton,
        Function.iterate_succ_apply', List.length_cons, Function.iterate_succ_apply,
        Moment.next_enter_of_ok henter, hbody, Moment.next, List.append_cons log]
      simp
  | budget place =>
    rw [runAct]
    cases hbudget : g.checkBudget place with
    | error e => exact Moment.next_budget_of_error hbudget
    | ok u => exact Moment.next_budget_of_ok hbudget
  | commit => rfl
  | look => rfl

theorem iterate_next_run (g : Guard) (acts rest : List Act) (outer : List (List Act))
    (log : List Entry) :
    Moment.next^[(g.run acts).2.length] ⟨g, acts ++ rest, outer, log⟩ =
      ⟨(g.run acts).1, rest, outer, log ++ (g.run acts).2⟩ := by
  cases acts with
  | nil => simp [run]
  | cons act acts =>
    rw [run_cons, List.length_append, Nat.add_comm, Function.iterate_add_apply, List.cons_append,
      iterate_next_runAct, iterate_next_run, List.append_assoc]

end

/-! ### What a step does to the counts -/

/-- The error reports a limit that the guard has reached. -/
def Bars (g : Guard) (e : Error) : Prop :=
  (g.limits.maxDepth ≤ g.depth ∧
      ∃ place, .limit .recursionDepth (g.depth + 1) g.limits.maxDepth place = e) ∨
    g.limits.maxModifications ≤ g.modifications ∧
      ∃ place, .limit .modifications (g.modifications + 1) g.limits.maxModifications place = e

/-- Whether an edit was counted. -/
def Entry.isCommit (entry : Entry) : Bool :=
  match entry.event with
  | .committed _ => true
  | _ => false

/-- Whether the step was refused. -/
def Entry.isRefusal (entry : Entry) : Bool :=
  match entry.event with
  | .refused _ => true
  | _ => false

/-- What a step may do. -/
inductive Moment.Change (m : Moment) : Moment → Prop
  | opened {place : Option StableId} {inner : Guard} {body rest : List Act}
      (room : m.guard.enter place = .ok inner) :
      Change m ⟨inner, body, rest :: m.outer, m.log ++ [inner.note (.entered inner.depth)]⟩
  | closed {rest : List Act} {outer : List (List Act)} (inside : m.outer = rest :: outer) :
      Change m ⟨m.guard.leave, rest, outer,
        m.log ++ [m.guard.leave.note (.left m.guard.leave.depth)]⟩
  | counted {rest : List Act} :
      Change m ⟨m.guard.commit, rest, m.outer,
        m.log ++ [m.guard.commit.note (.committed m.guard.commit.modifications)]⟩
  | refused {e : Error} {rest : List Act} (reason : m.guard.Bars e) :
      Change m ⟨m.guard, rest, m.outer, m.log ++ [m.guard.note (.refused e)]⟩
  /-- The budget was granted, the limits were read, or there was nothing to do. -/
  | kept {rest : List Act} {more : List Entry}
      (plain : ∀ entry ∈ more, entry.isCommit = false ∧ entry.isRefusal = false) :
      Change m ⟨m.guard, rest, m.outer, m.log ++ more⟩

theorem Moment.change_next (m : Moment) : m.Change m.next := by
  obtain ⟨g, acts, outer, log⟩ := m
  cases acts with
  | nil =>
    cases outer with
    | nil =>
      have hkept : Change ⟨g, [], [], log⟩ ⟨g, [], [], log ++ []⟩ := .kept (List.forall_mem_nil _)
      rwa [List.append_nil] at hkept
    | cons rest outer => exact .closed rfl
  | cons act rest =>
    cases act with
    | enter place body =>
      cases henter : g.enter place with
      | error e =>
        rw [next_enter_of_error henter]
        obtain ⟨hfull, he⟩ := enter_eq_error_iff.1 henter
        exact .refused (.inl ⟨hfull, place, he⟩)
      | ok inner =>
        rw [next_enter_of_ok henter]
        exact .opened henter
    | budget place =>
      cases hbudget : g.checkBudget place with
      | error e =>
        rw [next_budget_of_error hbudget]
        obtain ⟨hspent, he⟩ := checkBudget_eq_error_iff.1 hbudget
        exact .refused (.inr ⟨hspent, place, he⟩)
      | ok u =>
        rw [next_budget_of_ok hbudget]
        exact .kept (by simp [note, Entry.isCommit, Entry.isRefusal])
    | commit => exact .counted
    | look => exact .kept (by simp [note, Entry.isCommit, Entry.isRefusal])

/-- The counts of a moment of a program that was begun with the guard `g`. -/
structure Moment.Keeps (m : Moment) (g : Guard) : Prop where
  limits : m.guard.limits = g.limits
  /-- The open levels are those from before and those of the program. -/
  depth : m.guard.depth = g.depth + m.outer.length
  /-- The limit is kept inside every body. -/
  within : m.outer ≠ [] → m.guard.depth ≤ g.limits.maxDepth
  /-- The edits that are counted are those in the log. -/
  count : m.guard.modifications = g.modifications + m.log.countP Entry.isCommit

theorem Moment.Keeps.change (h : m.Keeps g) (step : m.Change m') : m'.Keeps g := by
  cases step with
  | opened room =>
    obtain ⟨hroom, rfl⟩ := enter_eq_ok_iff.1 room
    have hlimits := h.limits
    have hdepth := h.depth
    constructor
    · exact hlimits
    · simp only [List.length_cons]
      omega
    · intro _
      rw [hlimits] at hroom
      exact hroom
    · simpa [note, Entry.isCommit] using h.count
  | @closed rest outer inside =>
    have hdepth := h.depth
    have hwithin := h.within (by simp [inside])
    rw [inside, List.length_cons] at hdepth
    constructor
    · exact h.limits
    · simp only [leave]
      omega
    · intro _
      simp only [leave]
      omega
    · simpa [note, leave, Entry.isCommit] using h.count
  | counted =>
    refine ⟨h.limits, h.depth, h.within, ?_⟩
    simp [note, commit, Entry.isCommit, h.count, Nat.add_assoc]
  | refused reason =>
    exact ⟨h.limits, h.depth, h.within, by simpa [note, Entry.isCommit] using h.count⟩
  | @kept rest more plain =>
    have hnone : more.countP Entry.isCommit = 0 :=
      List.countP_eq_zero.2 fun entry hentry => by simp [(plain entry hentry).1]
    exact ⟨h.limits, h.depth, h.within, by simp [hnone, h.count]⟩

theorem keeps_moment (g : Guard) (acts : List Act) (steps : Nat) :
    (g.moment acts steps).Keeps g := by
  induction steps with
  | zero => exact ⟨rfl, rfl, fun h => absurd rfl h, rfl⟩
  | succ steps ih =>
    rw [moment_succ]
    exact ih.change (g.moment acts steps).change_next

/-- A refusal changes none of the counts, and is for a limit that has been reached. -/
theorem Moment.Change.of_refused {s : Statistics} (step : m.Change m')
    (h : m'.log = m.log ++ [⟨.refused e, s⟩]) :
    m'.guard = m.guard ∧ m'.outer = m.outer ∧ s = m.guard.statistics ∧ m.guard.Bars e := by
  cases step with
  | opened room => simp [note] at h
  | closed inside => simp [note] at h
  | counted => simp [note] at h
  | refused reason =>
    cases List.append_cancel_left h
    exact ⟨rfl, rfl, rfl, reason⟩
  | kept plain =>
    obtain rfl := List.append_cancel_left h
    simp [Entry.isRefusal] at plain

/-! ### The largest depth -/

/-- The depths that were held inside a body, up to some step. -/
def held (g : Guard) (acts : List Act) (steps : Nat) : Set Nat :=
  {d | ∃ k ≤ steps, (g.moment acts k).outer ≠ [] ∧ (g.moment acts k).guard.depth = d}

theorem held_succ (g : Guard) (acts : List Act) (steps : Nat) :
    g.held acts (steps + 1) =
      if (g.moment acts (steps + 1)).outer = [] then g.held acts steps
      else insert (g.moment acts (steps + 1)).guard.depth (g.held acts steps) := by
  ext d
  have hlast : d ∈ g.held acts (steps + 1) ↔ d ∈ g.held acts steps ∨
      (g.moment acts (steps + 1)).outer ≠ [] ∧ (g.moment acts (steps + 1)).guard.depth = d := by
    simp only [held, Set.mem_ofPred_eq, Nat.le_succ_iff, or_and_right, exists_or, exists_eq_left]
  rw [hlast]
  split
  · next h => simp [h]
  · next h => rw [Set.mem_insert_iff, or_comm, and_iff_right h, eq_comm]

/-- Inside a body the largest depth is brought up to date, and outside of all bodies there is
nothing to be recorded. -/
theorem Moment.Change.deepest_eq (step : m.Change m')
    (recorded : m.outer ≠ [] → m.guard.depth ≤ m.guard.deepest) :
    m'.guard.deepest =
      if m'.outer = [] then m.guard.deepest else max m'.guard.depth m.guard.deepest := by
  have hsame : m.guard.deepest =
      if m.outer = [] then m.guard.deepest else max m.guard.depth m.guard.deepest := by
    split
    · rfl
    · next h => exact (max_eq_right (recorded h)).symm
  cases step with
  | opened room =>
    obtain ⟨-, rfl⟩ := enter_eq_ok_iff.1 room
    rw [if_neg (List.cons_ne_nil _ _)]
    exact max_comm _ _
  | closed inside =>
    have hdepth : m.guard.leave.depth ≤ m.guard.deepest :=
      (Nat.sub_le _ _).trans (recorded (by simp [inside]))
    split
    · rfl
    · exact (max_eq_right hdepth).symm
  | counted => exact hsame
  | refused reason => exact hsame
  | kept plain => exact hsame

/-- The largest depth is the one from before or the largest that was held in a body since. -/
theorem isGreatest_deepest (g : Guard) (acts : List Act) (steps : Nat) :
    IsGreatest (insert g.deepest (g.held acts steps)) (g.moment acts steps).guard.deepest := by
  induction steps with
  | zero =>
    have hnone : g.held acts 0 = ∅ := by simp [held, moment]
    rw [hnone, insert_empty_eq]
    exact isGreatest_singleton
  | succ steps ih =>
    have recorded : (g.moment acts steps).outer ≠ [] →
        (g.moment acts steps).guard.depth ≤ (g.moment acts steps).guard.deepest := fun h =>
      ih.2 (Set.mem_insert_of_mem _ ⟨steps, le_rfl, h, rfl⟩)
    have hstep := (g.moment acts steps).change_next
    rw [← moment_succ] at hstep
    rw [held_succ, hstep.deepest_eq recorded]
    split
    · exact ih
    · rw [Set.insert_comm]
      exact ih.insert _

/-! ### Programs -/

/-- What the counts are after some steps of a program. -/
structure Balanced (g : Guard) (acts : List Act) (steps : Nat) : Prop
    extends (g.moment acts steps).Keeps g where
  /-- The largest depth is the one from before or one that was held in a body since, and none of
  these is larger. Outside of all bodies the depth is that of the start. -/
  deepest : IsGreatest (insert g.deepest (g.held acts steps)) (g.moment acts steps).guard.deepest
  /-- If the next step is refused, then for a limit that has been reached, and all counts and the
  levels that are open stay as they are. -/
  refused : ∀ e s, (g.moment acts (steps + 1)).log =
      (g.moment acts steps).log ++ [⟨.refused e, s⟩] →
    (g.moment acts (steps + 1)).guard = (g.moment acts steps).guard ∧
      (g.moment acts (steps + 1)).outer = (g.moment acts steps).outer ∧
      s = (g.moment acts steps).guard.statistics ∧ (g.moment acts steps).guard.Bars e

/-- For every guard and every program, the counts are as they should be at each moment. The program
ends after as many steps as there are entries in its log, and then the levels that are open are
those that were open at its start. -/
theorem levels_balanced (g : Guard) (acts : List Act) :
    (∀ steps, g.Balanced acts steps) ∧
      g.moment acts (g.run acts).2.length = ⟨(g.run acts).1, [], [], (g.run acts).2⟩ ∧
      (g.run acts).1.depth = g.depth := by
  have hend : g.moment acts (g.run acts).2.length = ⟨(g.run acts).1, [], [], (g.run acts).2⟩ := by
    have hrun := iterate_next_run g acts [] [] []
    rwa [List.append_nil] at hrun
  refine ⟨fun steps => ⟨g.keeps_moment acts steps, g.isGreatest_deepest acts steps, ?_⟩, hend, ?_⟩
  · intro e s hlog
    rw [moment_succ] at hlog ⊢
    exact (g.moment acts steps).change_next.of_refused hlog
  · have hdepth := (g.keeps_moment acts (g.run acts).2.length).depth
    rwa [hend] at hdepth

-- the inner level is refused, and so the edit in it is not carried out; nor does a refused request
-- for budget keep an edit from being counted
example :
    (({ limits := ⟨1, 1⟩ } : Guard).run
      [.enter none [.commit, .enter none [.commit], .budget none], .commit]).1 =
      { limits := ⟨1, 1⟩, deepest := 1, modifications := 2 } := by decide

end TreeEdit.Guard
