import TreeEdit.Proofs.Accounting

/-!
# The order of requests to different overlays

The overlays of a view have nothing in common but the guard that counts their edits. As long as the
guard has an edit left, a request does the same whatever has been counted, and adds the same to the
counts: this is `Overlay.perform_eq_plus`. So two requests to different overlays may change places,
and `Session.sameEffect_of_requests` goes from there to whole schedules: if the edits of all workers
together stay within the limit, only the order of the requests to each single overlay matters.
-/

namespace TreeEdit

/-! ### Counts of shared guards -/

namespace SharedGuard

variable {g d : SharedGuard}

/-- A guard with the same limits that has counted nothing. -/
def fresh (g : SharedGuard) : SharedGuard :=
  { limits := g.limits }

/-- A guard that has counted what a second one has counted as well. -/
def plus (g d : SharedGuard) : SharedGuard :=
  { g with
    modifications := g.modifications + d.modifications
    deepest := max g.deepest d.deepest }

@[simp] theorem fresh_plus (g d : SharedGuard) : (g.plus d).fresh = g.fresh := rfl

@[simp] theorem plus_fresh (g : SharedGuard) : g.plus g.fresh = g := by
  simp [plus, fresh]

theorem plus_right_comm (g d d' : SharedGuard) : (g.plus d).plus d' = (g.plus d').plus d := by
  simp only [plus, SharedGuard.mk.injEq, true_and]
  exact ⟨Nat.add_right_comm _ _ _, Nat.max_right_comm _ _ _⟩

end SharedGuard

/-! ### One request -/

/-- Whether a request asks for an edit. -/
def OverlayCall.isEdit : OverlayCall → Bool
  | .shared (.create _) => false
  | _ => true

theorem OverlayCall.isEdit_of_edit? {o : Overlay} {call : OverlayCall} {e : Edit}
    (h : call.edit? o = some e) : call.isEdit = true := by
  cases call with
  | insertAt parent index new => rfl
  | shared call =>
    cases call with
    | create n => cases h
    | _ => rfl

namespace Overlay

variable {g : SharedGuard}

/-- What the shared guard makes of a planned edit, if it has an edit left. -/
theorem settle_eq_plus (o : Overlay) (target : StableId) (e : Edit) (way : Path) (value : Node)
    (left : g.modifications < g.limits.maxModifications) :
    o.settle g target e way value =
      ((o.settle g.fresh target e way value).1, g.plus (o.settle g.fresh target e way value).2.1,
        (o.settle g.fresh target e way value).2.2) := by
  have hleft : g.fresh.modifications < g.fresh.limits.maxModifications := Nat.zero_lt_of_lt left
  unfold settle
  by_cases hdepth : way.length > g.limits.maxDepth
  · have hdepth' : way.length > g.fresh.limits.maxDepth := hdepth
    rw [SharedGuard.admitDepth, SharedGuard.admitDepth, if_pos hdepth, if_pos hdepth']
    simp only [SharedGuard.plus_fresh]
    rfl
  · have hdepth' : ¬way.length > g.fresh.limits.maxDepth := hdepth
    rw [SharedGuard.admitDepth, SharedGuard.admitDepth, if_neg hdepth, if_neg hdepth']
    dsimp only
    rw [SharedGuard.reserve, SharedGuard.reserve, if_pos left, if_pos hleft]
    simp [SharedGuard.plus, SharedGuard.fresh]

/-- What the shared guard makes of an edit, if it has an edit left. -/
theorem record_eq_plus (o : Overlay) (e : Edit)
    (left : g.modifications < g.limits.maxModifications) :
    o.record g e =
      ((o.record g.fresh e).1, g.plus (o.record g.fresh e).2.1, (o.record g.fresh e).2.2) := by
  unfold record
  dsimp only
  cases o.shadow.node (e.mapIds o.forward.resolve).target with
  | error err => simp
  | ok node =>
    dsimp only
    cases o.guard.enter (some node.stableId) with
    | error err => simp
    | ok guard =>
      dsimp only
      cases guard.checkBudget (some node.stableId) with
      | error err => simp
      | ok u =>
        dsimp only
        cases ({ o with guard } : Overlay).plan node.stableId (e.mapIds o.forward.resolve) with
        | error err => simp
        | ok out =>
          obtain ⟨way, value⟩ := out
          dsimp only
          rw [settle_eq_plus _ node.stableId e way value left]

/-- A request does under any guard that has an edit left what it does under one that has counted
nothing, and what it adds to the counts is the same. -/
theorem perform_eq_plus (o : Overlay) (call : OverlayCall)
    (left : call.isEdit = true → g.modifications < g.limits.maxModifications) :
    o.perform g call =
      ((o.perform g.fresh call).1, g.plus (o.perform g.fresh call).2.1,
        (o.perform g.fresh call).2.2) := by
  rcases o.perform_cases call with ⟨n, rfl⟩ | ⟨e, he, hperform⟩ | ⟨err, -, hperform⟩
  · simp [perform]
  · rw [hperform, hperform, record_eq_plus o e (left (OverlayCall.isEdit_of_edit? he))]
    rfl
  · simp [hperform]

/-- A request for an edit is counted once at most, and a request for a node not at all. -/
theorem modifications_perform_le (o : Overlay) (g : SharedGuard) (call : OverlayCall) :
    (o.perform g call).2.1.modifications ≤ g.modifications + call.isEdit.toNat := by
  rcases o.perform_cases call with ⟨n, rfl⟩ | ⟨e, he, -⟩ | ⟨err, -, hperform⟩
  · exact Nat.le_refl _
  · rw [OverlayCall.isEdit_of_edit? he]
    have hout := o.outcome_perform g call
    generalize o.perform g call = out at hout ⊢
    obtain ⟨next, shared, answer⟩ := out
    dsimp only at hout ⊢
    cases hout with
    | refused err d m => exact Nat.le_succ _
    | spent err d m planned failed => exact Nat.le_refl _
    | made id log => exact Nat.le_succ _
    | recorded log count => exact Nat.le_of_eq count
  · rw [hperform]
    exact Nat.le_add_right _ _

end Overlay

/-! ### Schedules -/

namespace Session

variable {s : Session} {j k : Nat} {r q : OverlayCall} {o : Overlay}
  {schedule schedule' schedule'' : List (Nat × OverlayCall)}

/-- The acts of a schedule: requests, each with the number of the overlay that it goes to. -/
def calls (schedule : List (Nat × OverlayCall)) : List Act :=
  schedule.map fun entry => .call entry.1 entry.2

/-- The requests of a schedule that go to one overlay, in order. -/
def requestsTo (k : Nat) (schedule : List (Nat × OverlayCall)) : List OverlayCall :=
  (schedule.filter (·.1 = k)).map (·.2)

/-- The number of requests of a schedule that ask for an edit. -/
def editCount (schedule : List (Nat × OverlayCall)) : Nat :=
  schedule.countP (·.2.isEdit)

/-- The answers of one overlay to its requests, in order, when a schedule is gone through. -/
def answersTo (s : Session) (k : Nat) : List (Nat × OverlayCall) → List (Verdict (Option NodeId))
  | [] => []
  | (j, request) :: schedule =>
    let (next, answer) := s.act (.call j request)
    if j = k then answer :: next.answersTo k schedule else next.answersTo k schedule

/-- All edits that a schedule asks for could be counted. -/
def WithinBudget (s : Session) (schedule : List (Nat × OverlayCall)) : Prop :=
  s.count + editCount schedule ≤ s.view.shared.limits.maxModifications

theorem editCount_cons (j : Nat) (r : OverlayCall) (schedule : List (Nat × OverlayCall)) :
    editCount ((j, r) :: schedule) = editCount schedule + r.isEdit.toNat := by
  rw [editCount, List.countP_cons, editCount]
  cases r.isEdit <;> rfl

theorem WithinBudget.perm (budget : s.WithinBudget schedule) (h : schedule.Perm schedule') :
    s.WithinBudget schedule' := by
  rwa [WithinBudget, editCount, ← h.countP_eq]

theorem run_calls_cons (s : Session) (j : Nat) (r : OverlayCall)
    (schedule : List (Nat × OverlayCall)) :
    s.run (calls ((j, r) :: schedule)) = (s.act (.call j r)).1.run (calls schedule) := rfl

theorem act_call_none (h : s.overlays[j]? = none) (r : OverlayCall) :
    s.act (.call j r) = (s, .ok none) := by
  simp only [act, h]

/-- A request within the budget: what it does depends on its overlay alone. -/
theorem act_call_eq_plus (h : s.overlays[j]? = some o)
    (budget : s.WithinBudget ((j, r) :: schedule)) :
    s.act (.call j r) =
      ({ view := { s.view with
           shared := s.view.shared.plus (o.perform s.view.shared.fresh r).2.1 }
         overlays := s.overlays.set j (o.perform s.view.shared.fresh r).1 },
        (o.perform s.view.shared.fresh r).2.2) := by
  have hleft : r.isEdit = true →
      s.view.shared.modifications < s.view.shared.limits.maxModifications := by
    intro hedit
    rw [WithinBudget, editCount_cons, hedit, count] at budget
    exact Nat.lt_of_lt_of_le (Nat.lt_add_of_pos_right (Nat.succ_pos _)) budget
  rw [act_call h, Overlay.perform_eq_plus o r hleft]

/-- One request takes no more of the budget than was reserved for it. -/
theorem WithinBudget.act (budget : s.WithinBudget ((j, r) :: schedule)) :
    (s.act (.call j r)).1.WithinBudget schedule := by
  cases hj : s.overlays[j]? with
  | none =>
    rw [act_call_none hj]
    rw [WithinBudget, editCount_cons] at budget
    exact Nat.le_trans (Nat.add_le_add_left (Nat.le_add_right _ _) _) budget
  | some o =>
    have hcount := Overlay.modifications_perform_le o s.view.shared.fresh r
    rw [act_call_eq_plus hj budget]
    rw [WithinBudget, editCount_cons] at budget
    simp only [WithinBudget, count, SharedGuard.plus, SharedGuard.fresh] at budget hcount ⊢
    omega

/-- Two schedules lead to the same session, and every overlay gives the same answers. -/
structure SameEffect (s : Session) (schedule schedule' : List (Nat × OverlayCall)) : Prop where
  run_eq : s.run (calls schedule) = s.run (calls schedule')
  answers_eq : ∀ k, s.answersTo k schedule = s.answersTo k schedule'

namespace SameEffect

theorem refl (s : Session) (schedule : List (Nat × OverlayCall)) :
    SameEffect s schedule schedule :=
  ⟨rfl, fun _ => rfl⟩

theorem trans (h : SameEffect s schedule schedule') (h' : SameEffect s schedule' schedule'') :
    SameEffect s schedule schedule'' :=
  ⟨h.run_eq.trans h'.run_eq, fun k => (h.answers_eq k).trans (h'.answers_eq k)⟩

theorem cons (h : SameEffect (s.act (.call j r)).1 schedule schedule') :
    SameEffect s ((j, r) :: schedule) ((j, r) :: schedule') := by
  refine ⟨h.run_eq, fun k => ?_⟩
  simp only [answersTo, h.answers_eq k]

/-- Two requests to different overlays may change places. -/
theorem swap (hne : j ≠ k) (budget : s.WithinBudget ((j, r) :: (k, q) :: schedule)) :
    SameEffect s ((j, r) :: (k, q) :: schedule) ((k, q) :: (j, r) :: schedule) := by
  have budget' : s.WithinBudget ((k, q) :: (j, r) :: schedule) := budget.perm (.swap _ _ _)
  -- the two sessions after both requests, and the answers on both ways
  have hboth : ((s.act (.call j r)).1.act (.call k q)).1 =
        ((s.act (.call k q)).1.act (.call j r)).1 ∧
      ((s.act (.call j r)).1.act (.call k q)).2 = (s.act (.call k q)).2 ∧
      ((s.act (.call k q)).1.act (.call j r)).2 = (s.act (.call j r)).2 := by
    cases hj : s.overlays[j]? with
    | none =>
      have hj' : (s.act (.call k q)).1.overlays[j]? = none := by
        cases hk : s.overlays[k]? with
        | none => rwa [act_call_none hk]
        | some o => rwa [act_call hk, List.getElem?_set_ne (Ne.symm hne)]
      rw [act_call_none hj, act_call_none hj']
      exact ⟨rfl, rfl, rfl⟩
    | some a =>
      cases hk : s.overlays[k]? with
      | none =>
        have hk' : (s.act (.call j r)).1.overlays[k]? = none := by
          rwa [act_call hj, List.getElem?_set_ne hne]
        rw [act_call_none hk, act_call_none hk']
        exact ⟨rfl, rfl, rfl⟩
      | some b =>
        have hk' : (s.act (.call j r)).1.overlays[k]? = some b := by
          rwa [act_call hj, List.getElem?_set_ne hne]
        have hj' : (s.act (.call k q)).1.overlays[j]? = some a := by
          rwa [act_call hk, List.getElem?_set_ne (Ne.symm hne)]
        rw [act_call_eq_plus hk' budget.act, act_call_eq_plus hj' budget'.act,
          act_call_eq_plus hj budget, act_call_eq_plus hk budget']
        refine ⟨?_, rfl, rfl⟩
        simp only [SharedGuard.fresh_plus, SharedGuard.plus_right_comm _ (a.perform _ r).2.1,
          List.set_comm _ _ hne]
  obtain ⟨hnext, hq, hr⟩ := hboth
  refine ⟨?_, fun i => ?_⟩
  · rw [run_calls_cons, run_calls_cons, run_calls_cons, run_calls_cons, hnext]
  · simp only [answersTo, hnext, hq, hr]
    by_cases hji : j = i
    · have hki : k ≠ i := fun hki => hne (hji.trans hki.symm)
      simp [hji, hki]
    · simp [hji]

/-- A request may be moved to the front, past requests to other overlays. -/
theorem front (before : List (Nat × OverlayCall)) (hother : ∀ entry ∈ before, entry.1 ≠ j)
    (budget : s.WithinBudget (before ++ (j, r) :: schedule)) :
    SameEffect s (before ++ (j, r) :: schedule) ((j, r) :: (before ++ schedule)) := by
  induction before generalizing s with
  | nil => exact refl s _
  | cons entry before ih =>
    obtain ⟨k, q⟩ := entry
    have hrest := ih (fun entry hentry => hother entry (List.mem_cons_of_mem _ hentry)) budget.act
    have hbudget : s.WithinBudget ((k, q) :: (j, r) :: (before ++ schedule)) :=
      budget.perm (List.perm_middle.cons _)
    exact (cons hrest).trans (swap (hother (k, q) List.mem_cons_self) hbudget)

end SameEffect

/-! ### Schedules with the same requests to each overlay -/

theorem count_requestsTo (k : Nat) (q : OverlayCall) (schedule : List (Nat × OverlayCall)) :
    (requestsTo k schedule).count q = schedule.count (k, q) := by
  induction schedule with
  | nil => rfl
  | cons entry schedule ih =>
    obtain ⟨j, r⟩ := entry
    by_cases hj : j = k
    · subst hj
      simp only [requestsTo, List.filter_cons, decide_true, if_true, List.map_cons,
        List.count_cons] at ih ⊢
      rw [ih]
      simp
    · simp only [requestsTo, List.filter_cons, hj, decide_false, Bool.false_eq_true, if_false,
        List.count_cons] at ih ⊢
      rw [ih]
      simp [hj]

theorem perm_of_requests (same : ∀ k, requestsTo k schedule = requestsTo k schedule') :
    schedule.Perm schedule' := by
  refine List.perm_iff_count.2 fun entry => ?_
  obtain ⟨k, q⟩ := entry
  rw [← count_requestsTo, ← count_requestsTo, same k]

/-- The first request to an overlay stands behind requests to other overlays only. -/
theorem exists_first_request {rest : List OverlayCall} (h : requestsTo j schedule = r :: rest) :
    ∃ before after, schedule = before ++ (j, r) :: after ∧ (∀ entry ∈ before, entry.1 ≠ j) ∧
      ∀ k, requestsTo k schedule =
        if k = j then r :: requestsTo k (before ++ after) else requestsTo k (before ++ after) := by
  obtain ⟨entry, entries, hfilter, rfl, rfl⟩ := List.map_eq_cons_iff.1 h
  obtain ⟨before, after, rfl, hbefore, hentry, rfl⟩ := List.filter_eq_cons_iff.1 hfilter
  obtain ⟨i, q⟩ := entry
  obtain rfl : i = j := by simpa using hentry
  have hother : ∀ entry ∈ before, entry.1 ≠ i := by simpa using hbefore
  refine ⟨before, after, rfl, hother, fun k => ?_⟩
  by_cases hk : k = i
  · subst hk
    have hnone : before.filter (·.1 = k) = [] := List.filter_eq_nil_iff.2 hbefore
    simp [requestsTo, hnone]
  · simp [requestsTo, hk, Ne.symm hk]

/-- Schedules with the same requests to each overlay have the same effect, if all edits that they
ask for are within the budget. -/
theorem sameEffect_of_requests (same : ∀ k, requestsTo k schedule = requestsTo k schedule')
    (budget : s.WithinBudget schedule) : SameEffect s schedule schedule' := by
  induction schedule generalizing s schedule' with
  | nil =>
    obtain rfl : schedule' = [] := List.nil_perm.1 (perm_of_requests same)
    exact .refl s []
  | cons entry schedule ih =>
    obtain ⟨j, r⟩ := entry
    have hfirst : ∀ k, requestsTo k ((j, r) :: schedule) =
        if k = j then r :: requestsTo k schedule else requestsTo k schedule := by
      intro k
      by_cases hk : k = j
      · simp [requestsTo, hk]
      · simp [requestsTo, hk, Ne.symm hk]
    have hj : requestsTo j schedule' = r :: requestsTo j schedule := by
      rw [← same j, hfirst, if_pos rfl]
    obtain ⟨before, after, hsplit, hother, hrequests⟩ := exists_first_request hj
    -- what is left of both schedules has the same requests to each overlay again
    have hrest : ∀ k, requestsTo k schedule = requestsTo k (before ++ after) := by
      intro k
      have hk := same k
      rw [hfirst, hrequests] at hk
      split at hk
      · exact (List.cons.inj hk).2
      · exact hk
    have hbudget := budget.perm (perm_of_requests same)
    rw [hsplit] at hbudget ⊢
    have hfront := SameEffect.front before hother hbudget
    have hcons := SameEffect.cons (ih hrest budget.act)
    exact ⟨hcons.run_eq.trans hfront.run_eq.symm,
      fun k => (hcons.answers_eq k).trans (hfront.answers_eq k).symm⟩

/-- Recording does not depend on the schedule. Let two schedules hold the same requests to each
overlay in the same order, and let the edits that they ask for, with those counted before, be no
more than the limit of the batch. Then every request gets the same answer on both, and in the end
every overlay is the same, with its shadow, records, nodes and counts, and so are the counts of the
view. -/
theorem recording_ignores_schedule (s : Session) (schedule schedule' : List (Nat × OverlayCall))
    (same : ∀ k, requestsTo k schedule = requestsTo k schedule')
    (budget : s.count + editCount schedule ≤ s.view.shared.limits.maxModifications) :
    (∀ k, s.answersTo k schedule = s.answersTo k schedule') ∧
      (s.run (calls schedule)).overlays = (s.run (calls schedule')).overlays ∧
      (s.run (calls schedule)).view.shared = (s.run (calls schedule')).view.shared := by
  have h : SameEffect s schedule schedule' := sameEffect_of_requests same budget
  exact ⟨h.answers_eq, by rw [h.run_eq], by rw [h.run_eq]⟩

/-- An overlay for the whole tree and one for the block at slot 2, with paths of three nodes and
five edits for both together. -/
def tight : Session :=
  (start 0 Context.strayTree { batch := ⟨3, 5⟩ }).run [.issue, .issueFor 2]

/-- The overlays take turns. The first is refused for the length of a path, the second for its
block. -/
def inTurns : List (Nat × OverlayCall) :=
  [(0, .shared (.create (Context.blockAt 6 [0]))), (1, .shared (.setWhitespace 3 ⟨" ", ""⟩)),
    (0, .shared (.replace 1 0 5)), (1, .shared (.setWhitespace 2 ⟨" ", ""⟩)),
    (0, .shared (.setWhitespace 0 ⟨" ", ""⟩)), (0, .shared (.setWhitespace 3 ⟨"", " "⟩))]

/-- The same requests, those to the second overlay first. -/
def secondFirst : List (Nat × OverlayCall) :=
  inTurns.filter (·.1 = 1) ++ inTurns.filter (·.1 = 0)

theorem recording_ignores_schedule_tight :
    tight.count + editCount inTurns = tight.view.shared.limits.maxModifications ∧
      (tight.run (calls inTurns)).count = 3 ∧
      (∀ k, tight.answersTo k inTurns = tight.answersTo k secondFirst) ∧
      (tight.run (calls inTurns)).overlays = (tight.run (calls secondFirst)).overlays ∧
      (tight.run (calls inTurns)).view.shared = (tight.run (calls secondFirst)).view.shared := by
  have hbudget : tight.count + editCount inTurns = tight.view.shared.limits.maxModifications := by
    decide +kernel
  refine ⟨hbudget, by decide +kernel, ?_⟩
  refine recording_ignores_schedule tight inTurns secondFirst (fun k => ?_) (Nat.le_of_eq hbudget)
  rcases k with - | - | k
  · rfl
  · rfl
  · simp [requestsTo, secondFirst, inTurns]

end Session

end TreeEdit
