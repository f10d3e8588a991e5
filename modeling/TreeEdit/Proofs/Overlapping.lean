import TreeEdit.Proofs.Budget
import TreeEdit.Proofs.Scheduling

/-!
# Overlapping requests come to one after the other

`Session` has requests to different overlays one after the other, and `Workshop` has their steps in
any order. If the edits of all requests together stay within the limit of the batch, this makes no
difference. `Workshop.settled` is the session that a workshop comes to if every request under way is
finished: a step that goes on with a request leaves it as it is, and a step that begins with one is
the whole request there. So a run of overlapping steps is the run of the requests in the order in
which they are begun (`Workshop.settled_run`), and what holds of all schedules of requests holds of
all orders of their steps: `Workshop.overlap_ignores_schedule`.
-/

namespace TreeEdit

/-! ### What several workers add to the counts -/

namespace SharedGuard

variable {g g' d d' : SharedGuard} {ds : List SharedGuard} {k : Nat}

/-- A guard that has counted what some others have counted as well. -/
def plusAll (g : SharedGuard) (ds : List SharedGuard) : SharedGuard :=
  ds.foldl plus g

theorem plusAll_cons (g d : SharedGuard) (ds : List SharedGuard) :
    g.plusAll (d :: ds) = (g.plus d).plusAll ds := rfl

@[simp] theorem fresh_plusAll (g : SharedGuard) (ds : List SharedGuard) :
    (g.plusAll ds).fresh = g.fresh := by
  induction ds generalizing g with
  | nil => rfl
  | cons d ds ih => rw [plusAll_cons, ih, fresh_plus]

theorem plusAll_plus (g d : SharedGuard) (ds : List SharedGuard) :
    (g.plus d).plusAll ds = (g.plusAll ds).plus d := by
  induction ds generalizing g with
  | nil => rfl
  | cons x ds ih => rw [plusAll_cons, plusAll_cons, plus_right_comm, ih]

theorem plusAll_of_fresh (h : ∀ d ∈ ds, d = g.fresh) : g.plusAll ds = g := by
  induction ds with
  | nil => rfl
  | cons d ds ih =>
    rw [plusAll_cons, h d List.mem_cons_self, plus_fresh]
    exact ih fun x hx => h x (List.mem_cons_of_mem _ hx)

/-- What one of several has counted may be moved to the sum. -/
theorem plusAll_set (hget : ds[k]? = some d) (h : g'.plus d' = g.plus d) :
    g'.plusAll (ds.set k d') = g.plusAll ds := by
  induction ds generalizing g g' k with
  | nil => cases hget
  | cons x ds ih =>
    cases k with
    | zero =>
      obtain rfl : x = d := by simpa using hget
      rw [List.set_cons_zero, plusAll_cons, plusAll_cons, h]
    | succ k =>
      rw [List.set_cons_succ, plusAll_cons, plusAll_cons]
      refine ih (by simpa using hget) ?_
      rw [plus_right_comm, h, plus_right_comm]

theorem modifications_plusAll_ge (g : SharedGuard) (ds : List SharedGuard) :
    g.modifications ≤ (g.plusAll ds).modifications := by
  induction ds generalizing g with
  | nil => exact Nat.le_refl _
  | cons d ds ih => exact Nat.le_trans (Nat.le_add_right _ _) (ih (g.plus d))

theorem modifications_plus_le (hd : d ∈ ds) :
    g.modifications + d.modifications ≤ (g.plusAll ds).modifications := by
  induction ds generalizing g with
  | nil => cases hd
  | cons x ds ih =>
    rcases List.mem_cons.1 hd with rfl | hd
    · exact modifications_plusAll_ge (g.plus d) ds
    · exact Nat.le_trans (Nat.add_le_add_right (Nat.le_add_right _ _) _) (ih (g := g.plus x) hd)

end SharedGuard

/-! ### Steps of one worker -/

namespace Worker

variable {w : Worker} {g : SharedGuard} {call : OverlayCall} {call? : Option OverlayCall}

/-- The answer to the last request, if none is under way. -/
def answer? (w : Worker) : Option (Verdict (Option NodeId)) :=
  match w.stage with
  | .idle answer => some answer
  | _ => none

theorem exists_stage_of_isSome (h : w.answer?.isSome = true) : ∃ last, w.stage = .idle last := by
  unfold answer? at h
  split at h
  · exact ⟨_, by assumption⟩
  · cases h

theorem finish_of_isSome (h : w.answer?.isSome = true) (g : SharedGuard) : w.finish g = (w, g) := by
  obtain ⟨o, stage⟩ := w
  cases stage with
  | idle last => rfl
  | _ => cases h

/-- One step of a worker: it begins with a request, or goes on with the one under way. -/
def turn (w : Worker) (g : SharedGuard) : Option OverlayCall → Worker × SharedGuard
  | some call => (w.request g call, g)
  | none => w.advance g

/-- The request that a step begins with. A worker that is busy takes none. -/
def begins (w : Worker) (call? : Option OverlayCall) : Option OverlayCall :=
  if w.answer?.isSome then call? else none

theorem limits_turn (w : Worker) (g : SharedGuard) (call? : Option OverlayCall) :
    (w.turn g call?).2.limits = g.limits := by
  cases call? with
  | none => exact (w.move_advance g).limits_eq
  | some call => rfl

theorem fresh_turn (w : Worker) (g : SharedGuard) (call? : Option OverlayCall) :
    (w.turn g call?).2.fresh = g.fresh := by
  rw [SharedGuard.fresh, limits_turn, SharedGuard.fresh]

theorem turn_of_busy (h : ¬w.answer?.isSome) (g : SharedGuard) (call : OverlayCall) :
    w.turn g (some call) = (w, g) := by
  obtain ⟨o, stage⟩ := w
  cases stage with
  | idle last => exact absurd rfl h
  | _ => rfl

/-- A step that begins with no request is idle, or goes on with one. -/
theorem turn_of_begins_none (h : w.begins call? = none) (g : SharedGuard) :
    w.turn g call? = (w, g) ∨ w.turn g call? = w.advance g := by
  cases call? with
  | none => exact Or.inr rfl
  | some call =>
    refine Or.inl (turn_of_busy (fun hidle => ?_) g call)
    rw [begins, if_pos hidle] at h
    cases h

theorem begins_eq_some (h : w.begins call? = some call) :
    (∃ last, w.stage = .idle last) ∧ call? = some call := by
  unfold begins at h
  split at h
  · rename_i hidle
    exact ⟨exists_stage_of_isSome hidle, h⟩
  · cases h

/-- The shared guard is not used at the beginning of a request. -/
theorem request_fresh (w : Worker) (g : SharedGuard) (call : OverlayCall) :
    w.request g call = w.request g.fresh call := by
  obtain ⟨o, stage⟩ := w
  cases stage with
  | idle last =>
    unfold request
    rcases o.perform_cases call with ⟨n, rfl⟩ | ⟨e, hedit, -⟩ | ⟨err, hedit, hperform⟩
    · rfl
    · simp only [hedit]
    · dsimp only
      rw [hedit]
      dsimp only
      rw [hperform, hperform]
  | _ => rfl

/-- A request that is begun, and then finished under a guard that has counted nothing. -/
theorem finish_turn_of_begins (h : w.begins call? = some call) (g : SharedGuard) :
    w.turn g call? = ((w.turn g call?).1, g) ∧
      (w.turn g call?).1.finish g.fresh =
        (⟨(w.overlay.perform g.fresh call).1, .idle (w.overlay.perform g.fresh call).2.2⟩,
          (w.overlay.perform g.fresh call).2.1) := by
  obtain ⟨⟨last, hidle⟩, rfl⟩ := begins_eq_some h
  refine ⟨rfl, ?_⟩
  rw [turn, request_fresh]
  exact finish_request hidle g.fresh call

/-- The guard has the edit left that the request under way still needs. -/
def Provided (w : Worker) (g : SharedGuard) : Prop :=
  g.modifications + (w.finish g.fresh).2.modifications ≤ g.limits.maxModifications

/-- A worker that goes on comes to the same end, and what it has counted now it will not count
later. -/
theorem finish_advance (left : w.Provided g) :
    ((w.advance g).1.finish g.fresh).1 = (w.finish g.fresh).1 ∧
      (w.advance g).2.plus ((w.advance g).1.finish g.fresh).2 =
        g.plus (w.finish g.fresh).2 := by
  unfold Provided at left
  obtain ⟨o, stage⟩ := w
  cases stage with
  | idle last => exact ⟨rfl, rfl⟩
  | reserved p => exact ⟨rfl, rfl⟩
  | planned p =>
    rcases Nat.lt_or_ge g.limits.maxDepth p.way.length with hlt | hge
    · have hlt' : g.fresh.limits.maxDepth < p.way.length := hlt
      rw [advance_planned_error (SharedGuard.admitDepth_of_lt hlt _),
        finish_planned_error (SharedGuard.admitDepth_of_lt hlt' _)]
      exact ⟨rfl, rfl⟩
    · have hge' : p.way.length ≤ g.fresh.limits.maxDepth := hge
      rw [advance_planned_ok (SharedGuard.admitDepth_of_le hge _),
        finish_planned_ok (SharedGuard.admitDepth_of_le hge' _)]
      -- the length is counted, and whether an edit is granted does not depend on it
      rcases Nat.eq_zero_or_pos g.limits.maxModifications with hzero | hpos
      · rw [finish_admitted_error (SharedGuard.reserve_of_le (Nat.le_of_eq hzero) _),
          finish_admitted_error (SharedGuard.reserve_of_le (Nat.le_of_eq hzero) _)]
        exact ⟨rfl, by simp [SharedGuard.plus, SharedGuard.fresh, SharedGuard.withDeepest]⟩
      · rw [finish_admitted_ok (SharedGuard.reserve_of_lt hpos _),
          finish_admitted_ok (SharedGuard.reserve_of_lt hpos _), finish_reserved, finish_reserved]
        exact ⟨rfl, by simp [SharedGuard.plus, SharedGuard.fresh, SharedGuard.withDeepest]⟩
  | admitted p =>
    rcases Nat.eq_zero_or_pos g.limits.maxModifications with hzero | hpos
    · have hcount : g.modifications = 0 := by omega
      rw [advance_admitted_error (SharedGuard.reserve_of_le (by omega) _),
        finish_admitted_error (SharedGuard.reserve_of_le (Nat.le_of_eq hzero) _), hcount]
      exact ⟨rfl, rfl⟩
    · rw [finish_admitted_ok (g := g.fresh) (SharedGuard.reserve_of_lt hpos _),
        finish_reserved] at left ⊢
      rw [advance_admitted_ok (SharedGuard.reserve_of_lt left _), finish_reserved]
      exact ⟨rfl, by simp [SharedGuard.plus, SharedGuard.fresh]⟩

/-- The answer that a step gives, if the request that it begins or goes on with is finished. -/
def reply (w : Worker) (g : SharedGuard) (call? : Option OverlayCall) :
    List (Verdict (Option NodeId)) :=
  if call?.isSome = w.answer?.isSome then (w.turn g call?).1.answer?.toList else []

/-- The answer that the request under way gets in the end. -/
def due (w : Worker) (g : SharedGuard) : List (Verdict (Option NodeId)) :=
  if w.answer?.isSome then [] else (w.finish g).1.answer?.toList

theorem answer?_append_due (w : Worker) (g : SharedGuard) :
    w.answer?.toList ++ w.due g = (w.finish g).1.answer?.toList := by
  by_cases h : w.answer?.isSome
  · rw [due, if_pos h, finish_of_isSome h, List.append_nil]
  · rw [due, if_neg h, Option.not_isSome_iff_eq_none.1 h]
    rfl

/-- What a step answers, and what is answered later, is what was due before it and the answer of the
request that it begins with. -/
theorem reply_append_due (left : w.Provided g) (call? : Option OverlayCall) :
    w.reply g call? ++ (w.turn g call?).1.due g.fresh =
      w.due g.fresh ++
        (w.begins call?).toList.map fun call => (w.overlay.perform g.fresh call).2.2 := by
  by_cases hidle : w.answer?.isSome
  · have hdue : w.due g.fresh = [] := if_pos hidle
    have hbegins : w.begins call? = call? := if_pos hidle
    rw [hdue, hbegins]
    cases call? with
    | none =>
      have hturn : w.turn g none = (w, g) := by
        obtain ⟨last, hlast⟩ := exists_stage_of_isSome hidle
        simp only [turn, advance, hlast]
      rw [hturn, hdue, reply, hidle]
      rfl
    | some call =>
      have hreply : w.reply g (some call) = (w.turn g (some call)).1.answer?.toList :=
        if_pos hidle.symm
      rw [hreply, answer?_append_due, (finish_turn_of_begins hbegins g).2]
      rfl
  · have hbegins : w.begins call? = none := if_neg hidle
    rw [hbegins]
    cases call? with
    | none =>
      have hreply : w.reply g none = (w.turn g none).1.answer?.toList :=
        if_pos (Bool.eq_false_of_not_eq_true hidle).symm
      rw [hreply, answer?_append_due, turn, (finish_advance left).1, due, if_neg hidle]
      simp
    | some call =>
      rw [reply, turn_of_busy hidle, Option.not_isSome_iff_eq_none.1 hidle]
      simp

end Worker

/-! ### Schedules in two parts -/

namespace Session

variable {s : Session} {schedule more : List (Nat × OverlayCall)}

theorem WithinBudget.run (budget : s.WithinBudget (schedule ++ more)) :
    (s.run (calls schedule)).WithinBudget more := by
  induction schedule generalizing s with
  | nil => exact budget
  | cons entry schedule ih => exact ih budget.act

theorem answersTo_append (s : Session) (k : Nat) (schedule more : List (Nat × OverlayCall)) :
    s.answersTo k (schedule ++ more) =
      s.answersTo k schedule ++ (s.run (calls schedule)).answersTo k more := by
  induction schedule generalizing s with
  | nil => rfl
  | cons entry schedule ih =>
    obtain ⟨j, request⟩ := entry
    simp only [List.cons_append, answersTo, ih, run_calls_cons]
    split <;> rfl

theorem run_calls_append (s : Session) (schedule more : List (Nat × OverlayCall)) :
    s.run (calls (schedule ++ more)) = (s.run (calls schedule)).run (calls more) := by
  rw [calls, List.map_append]
  exact List.foldl_append

end Session

/-! ### Steps of all workers -/

namespace Workshop

open Session (calls requestsTo)

/-- A step of one worker, which begins with a request or goes on with the one under way. -/
structure Turn where
  worker : Nat
  request? : Option OverlayCall := none

/-- The step as an act. -/
def Turn.act (t : Turn) : Act :=
  match t.request? with
  | some call => .request t.worker call
  | none => .resume t.worker

variable {s : Workshop} {t : Turn} {ts ts' : List Turn} {w : Worker} {k : Nat}
  {rest : List (Nat × OverlayCall)}

theorem act_turn (h : s.workers[t.worker]? = some w) :
    s.act t.act =
      { view := { s.view with shared := (w.turn s.view.shared t.request?).2 }
        workers := s.workers.set t.worker (w.turn s.view.shared t.request?).1 } := by
  obtain ⟨k, request?⟩ := t
  cases request? with
  | none => exact act_resume h
  | some call => exact act_request h call

theorem act_turn_none (h : s.workers[t.worker]? = none) : s.act t.act = s := by
  obtain ⟨k, request?⟩ := t
  dsimp only at h
  cases request? <;> simp only [Turn.act, act, h]

/-- The request that a step begins with, with the number of the worker. -/
def takes (s : Workshop) (t : Turn) : List (Nat × OverlayCall) :=
  match s.workers[t.worker]? with
  | some w => (w.begins t.request?).toList.map (t.worker, ·)
  | none => []

/-- The requests that some steps begin with, in order. -/
def taken (s : Workshop) : List Turn → List (Nat × OverlayCall)
  | [] => []
  | t :: ts => s.takes t ++ (s.act t.act).taken ts

/-- The session that a workshop comes to if every request under way is finished, and there is no
lack of edits. -/
def settled (s : Workshop) : Session :=
  { view := { s.view with
      shared := s.view.shared.plusAll (s.workers.map fun w => (w.finish s.view.shared.fresh).2) }
    overlays := s.workers.map fun w => (w.finish s.view.shared.fresh).1.overlay }

theorem fresh_settled (s : Workshop) : s.settled.view.shared.fresh = s.view.shared.fresh :=
  SharedGuard.fresh_plusAll _ _

theorem limits_settled (s : Workshop) : s.settled.view.shared.limits = s.view.shared.limits := by
  show s.settled.view.shared.fresh.limits = s.view.shared.fresh.limits
  rw [fresh_settled]

/-- Within the budget, there is an edit left for every worker that needs one. -/
theorem provided_of_settled (hget : s.workers[k]? = some w)
    (budget : s.settled.WithinBudget rest) : w.Provided s.view.shared := by
  have hsum := SharedGuard.modifications_plus_le (g := s.view.shared)
    (List.mem_map_of_mem (f := fun w => (w.finish s.view.shared.fresh).2)
      (List.mem_of_getElem? hget))
  have hcount : s.settled.count ≤ s.settled.view.shared.limits.maxModifications :=
    Nat.le_trans (Nat.le_add_right _ _) budget
  rw [limits_settled] at hcount
  exact Nat.le_trans hsum hcount

theorem takes_of_getElem? (h : s.workers[t.worker]? = some w) :
    s.takes t = (w.begins t.request?).toList.map (t.worker, ·) := by
  rw [takes, h]

theorem takes_of_none (h : s.workers[t.worker]? = none) : s.takes t = [] := by
  rw [takes, h]

theorem getElem?_overlays_settled (hget : s.workers[k]? = some w) :
    s.settled.overlays[k]? = some (w.finish s.view.shared.fresh).1.overlay := by
  simp [settled, hget]

/-- What a worker does that begins with no request comes to what was settled before. -/
theorem settled_of_begins_none (hget : s.workers[t.worker]? = some w)
    (hbegins : w.begins t.request? = none)
    (left : w.Provided s.view.shared) : (s.act t.act).settled = s.settled := by
  have hsame : ((w.turn s.view.shared t.request?).1.finish s.view.shared.fresh).1 =
        (w.finish s.view.shared.fresh).1 ∧
      (w.turn s.view.shared t.request?).2.plus
          ((w.turn s.view.shared t.request?).1.finish s.view.shared.fresh).2 =
        s.view.shared.plus (w.finish s.view.shared.fresh).2 := by
    rcases Worker.turn_of_begins_none hbegins s.view.shared with hturn | hturn
    · rw [hturn]
      exact ⟨rfl, rfl⟩
    · rw [hturn]
      exact Worker.finish_advance left
  have hdelta : (s.workers.map fun w => (w.finish s.view.shared.fresh).2)[t.worker]? =
      some (w.finish s.view.shared.fresh).2 := by simp [hget]
  obtain ⟨hk, hoverlay⟩ := List.getElem?_eq_some_iff.1 (getElem?_overlays_settled hget)
  have hoverlays := List.set_getElem_self hk
  rw [hoverlay] at hoverlays
  rw [act_turn hget]
  simp only [settled, w.fresh_turn, List.map_set, hsame.1,
    SharedGuard.plusAll_set hdelta hsame.2] at hoverlays ⊢
  rw [hoverlays]

/-- A request that is begun is settled as the session carries it out and answers it. -/
theorem settled_of_begins_some {call : OverlayCall} (hget : s.workers[t.worker]? = some w)
    (hbegins : w.begins t.request? = some call)
    (budget : s.settled.WithinBudget ((t.worker, call) :: rest)) :
    s.settled.act (.call t.worker call) =
      ((s.act t.act).settled, (w.overlay.perform s.view.shared.fresh call).2.2) := by
  obtain ⟨hguard, hfinish⟩ := Worker.finish_turn_of_begins hbegins s.view.shared
  obtain ⟨⟨last, hidle⟩, -⟩ := Worker.begins_eq_some hbegins
  have hw : w.finish s.view.shared.fresh = (w, s.view.shared.fresh) :=
    Worker.finish_of_isSome (by simp [Worker.answer?, hidle]) _
  have hoverlay := getElem?_overlays_settled hget
  have hdelta : (s.workers.map fun w => (w.finish s.view.shared.fresh).2)[t.worker]? =
      some s.view.shared.fresh := by simp [hget, hw]
  rw [hw] at hoverlay
  -- the worker has nothing under way, so what it adds to the counts is all that the request adds
  have hcounts := SharedGuard.plusAll_set (g := s.view.shared.plus
    (w.overlay.perform s.view.shared.fresh call).2.1) hdelta (SharedGuard.plus_fresh _).symm
  rw [SharedGuard.plusAll_plus] at hcounts
  rw [Session.act_call_eq_plus hoverlay budget, fresh_settled, act_turn hget, hguard]
  simp only [settled, List.map_set, hfinish, hcounts]

/-- A step that begins with no request leaves the settled session as it is, and one that begins with
a request carries it out. -/
theorem settled_turn (budget : s.settled.WithinBudget (s.takes t ++ rest)) :
    (s.act t.act).settled = s.settled.run (calls (s.takes t)) := by
  cases hget : s.workers[t.worker]? with
  | none =>
    rw [act_turn_none hget, takes_of_none hget]
    rfl
  | some w =>
    rw [takes_of_getElem? hget] at budget ⊢
    cases hbegins : w.begins t.request? with
    | none => exact settled_of_begins_none hget hbegins (provided_of_settled hget budget)
    | some call =>
      rw [hbegins] at budget
      show _ = (s.settled.act (.call t.worker call)).1
      rw [settled_of_begins_some hget hbegins budget]

theorem withinBudget_turn (budget : s.settled.WithinBudget (s.takes t ++ rest)) :
    (s.act t.act).settled.WithinBudget rest := by
  rw [settled_turn budget]
  exact Session.WithinBudget.run budget

/-- A run of overlapping steps settles as the run of the requests in the order in which they are
begun. -/
theorem settled_run (budget : s.settled.WithinBudget (s.taken ts)) :
    (s.run (ts.map Turn.act)).settled = s.settled.run (calls (s.taken ts)) := by
  induction ts generalizing s with
  | nil => rfl
  | cons t ts ih =>
    rw [taken, Session.run_calls_append, ← settled_turn budget]
    exact ih (withinBudget_turn budget)

/-! ### Answers -/

/-- The answer that a step gives. -/
def reply (s : Workshop) (t : Turn) : List (Verdict (Option NodeId)) :=
  match s.workers[t.worker]? with
  | some w => w.reply s.view.shared t.request?
  | none => []

/-- The answers of one worker to its requests, in order, when some steps are taken. -/
def answersTo (s : Workshop) (k : Nat) : List Turn → List (Verdict (Option NodeId))
  | [] => []
  | t :: ts => (if t.worker = k then s.reply t else []) ++ (s.act t.act).answersTo k ts

/-- The answer that a worker gets in the end to the request under way. -/
def due (s : Workshop) (k : Nat) : List (Verdict (Option NodeId)) :=
  match s.workers[k]? with
  | some w => w.due s.view.shared.fresh
  | none => []

theorem due_of_getElem? (h : s.workers[k]? = some w) : s.due k = w.due s.view.shared.fresh := by
  rw [due, h]

theorem due_turn_of_ne (hget : s.workers[t.worker]? = some w) (hne : t.worker ≠ k) :
    (s.act t.act).due k = s.due k := by
  rw [act_turn hget, due, due, List.getElem?_set_ne hne, w.fresh_turn]

/-- What a step answers to one worker, and what is due to it after the step. -/
theorem answers_turn (k : Nat) (budget : s.settled.WithinBudget (s.takes t ++ rest)) :
    (if t.worker = k then s.reply t else []) ++ (s.act t.act).due k =
      s.due k ++ s.settled.answersTo k (s.takes t) := by
  cases hget : s.workers[t.worker]? with
  | none =>
    rw [act_turn_none hget, takes_of_none hget, reply, hget]
    simp [Session.answersTo]
  | some w =>
    have hleft := provided_of_settled hget budget
    rw [takes_of_getElem? hget] at budget ⊢
    by_cases hk : t.worker = k
    · subst hk
      have hlt : t.worker < s.workers.length := (List.getElem?_eq_some_iff.1 hget).1
      have hdue : (s.act t.act).due t.worker =
          (w.turn s.view.shared t.request?).1.due s.view.shared.fresh := by
        rw [act_turn hget, due_of_getElem? (List.getElem?_set_self hlt), w.fresh_turn]
      rw [if_pos rfl, hdue, reply, hget]
      dsimp only
      rw [Worker.reply_append_due hleft t.request?, due_of_getElem? hget]
      cases hbegins : w.begins t.request? with
      | none => rfl
      | some call =>
        rw [hbegins] at budget
        have hact := settled_of_begins_some hget hbegins budget
        simp [Session.answersTo, hact]
    · rw [if_neg hk, due_turn_of_ne hget hk]
      cases w.begins t.request? <;> simp [Session.answersTo, hk]

theorem answers_run (k : Nat) (budget : s.settled.WithinBudget (s.taken ts)) :
    s.answersTo k ts ++ (s.run (ts.map Turn.act)).due k =
      s.due k ++ s.settled.answersTo k (s.taken ts) := by
  induction ts generalizing s with
  | nil =>
    show [] ++ s.due k = s.due k ++ []
    simp
  | cons t ts ih =>
    have hrest := ih (withinBudget_turn budget)
    rw [taken, Session.answersTo_append, ← settled_turn budget, ← List.append_assoc,
      ← answers_turn k budget, List.append_assoc, ← hrest, answersTo, List.append_assoc]
    rfl

/-! ### Runs between idle workshops -/

/-- No request is under way. -/
def AllIdle (s : Workshop) : Prop :=
  ∀ w ∈ s.workers, w.answer?.isSome = true

instance (s : Workshop) : Decidable s.AllIdle :=
  inferInstanceAs (Decidable (∀ w ∈ s.workers, w.answer?.isSome = true))

theorem settled_of_allIdle (h : s.AllIdle) : s.settled = s.toSession := by
  have hfinish : ∀ w ∈ s.workers, w.finish s.view.shared.fresh = (w, s.view.shared.fresh) :=
    fun w hw => Worker.finish_of_isSome (h w hw) _
  have hcounts : s.view.shared.plusAll
      (s.workers.map fun w => (w.finish s.view.shared.fresh).2) = s.view.shared := by
    refine SharedGuard.plusAll_of_fresh fun d hd => ?_
    obtain ⟨w, hw, rfl⟩ := List.mem_map.1 hd
    rw [hfinish w hw]
  have hoverlays : s.workers.map (fun w => (w.finish s.view.shared.fresh).1.overlay) =
      s.workers.map (·.overlay) :=
    List.map_congr_left fun w hw => by rw [hfinish w hw]
  rw [settled, hcounts, hoverlays, toSession]

theorem due_of_allIdle (h : s.AllIdle) (k : Nat) : s.due k = [] := by
  cases hget : s.workers[k]? with
  | none => rw [due, hget]
  | some w =>
    rw [due_of_getElem? hget]
    exact if_pos (h w (List.mem_of_getElem? hget))

/-- Overlapping steps from an idle workshop to an idle workshop, within the budget, have the effect
and the answers of the requests one after the other, in the order in which they are begun. -/
theorem overlap_eq_run (idle : s.AllIdle) (ends : (s.run (ts.map Turn.act)).AllIdle)
    (budget : s.toSession.WithinBudget (s.taken ts)) :
    (s.run (ts.map Turn.act)).toSession = s.toSession.run (calls (s.taken ts)) ∧
      ∀ k, s.answersTo k ts = s.toSession.answersTo k (s.taken ts) := by
  rw [← settled_of_allIdle idle] at budget ⊢
  rw [← settled_of_allIdle ends]
  refine ⟨settled_run budget, fun k => ?_⟩
  have hanswers := answers_run k budget
  rwa [due_of_allIdle idle, due_of_allIdle ends, List.append_nil, List.nil_append] at hanswers

/-- Recording does not depend on the order of the steps either. Let two runs of overlapping steps
begin the same requests at each worker, in the same order, and let the edits that they ask for, with
those counted before, be no more than the limit of the batch. Then both lead to the same overlays
and the same counts, and every request gets the same answer. -/
theorem overlap_ignores_schedule (idle : s.AllIdle) (ends : (s.run (ts.map Turn.act)).AllIdle)
    (ends' : (s.run (ts'.map Turn.act)).AllIdle)
    (same : ∀ k, requestsTo k (s.taken ts) = requestsTo k (s.taken ts'))
    (budget : s.toSession.WithinBudget (s.taken ts)) :
    (s.run (ts.map Turn.act)).toSession = (s.run (ts'.map Turn.act)).toSession ∧
      ∀ k, s.answersTo k ts = s.answersTo k ts' := by
  have budget' := budget.perm (Session.perm_of_requests same)
  obtain ⟨hrun, hanswers⟩ := overlap_eq_run idle ends budget
  obtain ⟨hrun', hanswers'⟩ := overlap_eq_run idle ends' budget'
  have heffect := Session.sameEffect_of_requests same budget
  refine ⟨?_, fun k => ?_⟩
  · rw [hrun, hrun', heffect.run_eq]
  · rw [hanswers, hanswers', heffect.answers_eq]

/-- Two workers with an overlay each. -/
def sharing : Workshop :=
  (start 0 Context.strayTree { batch := ⟨3, 2⟩ }).run [.issue, .issue]

/-- Both workers have planned before the shared guard hears of either, and the one that began last
is the first to finish. -/
def braided : List Turn :=
  [⟨0, some (.shared (.setWhitespace 3 ⟨" ", ""⟩))⟩, ⟨1, some (.shared (.remove 1 0))⟩,
    ⟨1, none⟩, ⟨0, none⟩, ⟨1, none⟩, ⟨1, none⟩, ⟨0, none⟩, ⟨0, none⟩]

/-- The conditions hold of a run whose requests overlap, and the budget is used up. -/
example : sharing.AllIdle ∧ (sharing.run (braided.map Turn.act)).AllIdle ∧
    (sharing.taken braided).map (·.1) = [0, 1] ∧
    sharing.count + Session.editCount (sharing.taken braided) = 2 ∧
    (sharing.run (braided.map Turn.act)).count = 2 := by
  decide +kernel

end Workshop

end TreeEdit
