import TreeEdit.Proofs.Accounting

/-!
# Requests that overlap

The workers of a view run at the same time, and all they share is the guard that counts their edits.
A request first goes through the worker's own guard and the plan, which nobody else can see, then
makes two operations on the shared guard, and then rebuilds the shadow and writes the log. A
`Workshop` takes these parts as steps of their own, and the steps of different workers may come in
any order: between any two steps of a request others may use up the budget.

The steps of a request, one right after the other, are the request as `Overlay.perform` carries it
out: `Worker.finish_request`. Requests that overlap come to requests one after the other as long as
there are edits enough for all of them: `Workshop.overlap_eq_run`.
-/

namespace TreeEdit

/-! ### The parts of a request -/

namespace Overlay

/-- An edit that has passed the worker's own guard and has been planned. What is left are the two
operations on the shared guard and the rebuilding of the shadow. -/
structure Pending (o : Overlay) where
  edit : Edit
  target : StableId
  guard : Guard
  way : Path
  value : Node
  entered : o.guard.enter (some target) = .ok guard
  planned : ({ o with guard } : Overlay).plan target (edit.mapIds o.forward.resolve) =
    .ok (way, value)

/-- The overlay with the level open that the edit has entered. -/
def Pending.inside {o : Overlay} (p : o.Pending) : Overlay :=
  { o with guard := p.guard }

/-- The overlay after a refusal by the shared guard or by the shadow. -/
def Pending.refused {o : Overlay} (p : o.Pending) : Overlay :=
  p.inside.leave

/-- The overlay after the rebuilding of its shadow. -/
def Pending.done {o : Overlay} (p : o.Pending) (shadow : Store) (rebuilt : Rebuilt) : Overlay :=
  (p.inside.commit p.target p.edit shadow rebuilt).leave

theorem Pending.records_done {o : Overlay} (p : o.Pending) (shadow : Store) (rebuilt : Rebuilt) :
    (p.done shadow rebuilt).records = o.records ++ [⟨o.recordCount, p.target,
      p.edit.mapIds (o.forward.record rebuilt).origin, o.worker⟩] :=
  records_commit p.inside p.target p.edit shadow rebuilt

/-- The part of a recording that begins with the shared guard. -/
def Pending.complete {o : Overlay} (p : o.Pending) (g : SharedGuard) :
    Overlay × SharedGuard × Verdict Unit :=
  let (next, g, answer) := p.inside.settle g p.target p.edit p.way p.value
  (next.leave, g, answer)

/-- The part of a recording that comes before the shared guard. -/
def prepare (o : Overlay) (e : Edit) : Except (Overlay × Error) o.Pending :=
  match o.shadow.node (e.mapIds o.forward.resolve).target with
  | .error err => .error (o, err)
  | .ok node =>
    match entered : o.guard.enter (some node.stableId) with
    | .error err => .error (o, err)
    | .ok guard =>
      match guard.checkBudget (some node.stableId) with
      | .error err => .error (({ o with guard } : Overlay).leave, err)
      | .ok () =>
        match planned : ({ o with guard } : Overlay).plan node.stableId
            (e.mapIds o.forward.resolve) with
        | .error err => .error (({ o with guard } : Overlay).leave, err)
        | .ok (way, value) =>
          .ok { edit := e, target := node.stableId, guard, way, value, entered, planned }

theorem record_of_prepare_error {o next : Overlay} {e : Edit} {err : Error}
    (h : o.prepare e = .error (next, err)) (g : SharedGuard) :
    o.record g e = (next, g, .error err) := by
  unfold prepare at h
  unfold record
  split at h
  · rename_i hnode
    cases h
    simp only [hnode]
  · rename_i node hnode
    split at h
    · rename_i hentered
      cases h
      simp only [hnode, hentered]
    · rename_i guard hentered
      split at h
      · rename_i hbudget
        cases h
        simp only [hnode, hentered, hbudget]
      · rename_i hbudget
        split at h
        · rename_i hplanned
          cases h
          simp only [hnode, hentered, hbudget, hplanned]
        · cases h

theorem record_of_prepare_ok {o : Overlay} {e : Edit} {p : o.Pending} (h : o.prepare e = .ok p)
    (g : SharedGuard) : o.record g e = p.complete g := by
  unfold prepare at h
  unfold record
  split at h
  · cases h
  · rename_i node hnode
    split at h
    · cases h
    · rename_i guard hentered
      split at h
      · cases h
      · rename_i hbudget
        split at h
        · cases h
        · rename_i way value hplanned
          cases h
          simp only [hnode, hentered, hbudget, hplanned]
          rfl

theorem limits_settle (o : Overlay) (g : SharedGuard) (target : StableId) (e : Edit) (way : Path)
    (value : Node) : (o.settle g target e way value).2.1.limits = g.limits := by
  unfold settle
  cases hdepth : g.admitDepth way.length (some target) with
  | error err => rfl
  | ok admitted =>
    obtain rfl := SharedGuard.admitDepth_eq_ok hdepth
    dsimp only
    cases hreserve : (g.withDeepest (max g.deepest way.length)).reserve (some target) with
    | error err => rfl
    | ok reserved =>
      obtain rfl := SharedGuard.reserve_eq_ok hreserve
      rfl

/-- The shared limits stay as they are. -/
theorem limits_perform (o : Overlay) (g : SharedGuard) (request : OverlayCall) :
    (o.perform g request).2.1.limits = g.limits := by
  rcases o.perform_cases request with ⟨n, rfl⟩ | ⟨e, -, hperform⟩ | ⟨err, -, hperform⟩
  · rfl
  · rw [hperform]
    show (o.record g e).2.1.limits = g.limits
    cases hprepare : o.prepare e with
    | error refusal => rw [record_of_prepare_error hprepare]
    | ok p =>
      rw [record_of_prepare_ok hprepare]
      exact p.inside.limits_settle g p.target p.edit p.way p.value
  · rw [hperform]

/-- A request that records nothing leaves the log as it was. -/
theorem records_perform {o : Overlay} {call : OverlayCall} (h : call.edit? o = none)
    (g : SharedGuard) : (o.perform g call).1.records = o.records := by
  rcases o.perform_cases call with ⟨n, rfl⟩ | ⟨e, hedit, -⟩ | ⟨err, -, hperform⟩
  · show (o.create n).1.records = o.records
    rcases o.create_cases n with ⟨err, herr⟩ | ⟨hok, -, -⟩
    · rw [herr]
    · rw [hok]
      rfl
  · rw [h] at hedit
    cases hedit
  · rw [hperform]

theorem records_of_prepare_error {o next : Overlay} {e : Edit} {err : Error}
    (h : o.prepare e = .error (next, err)) : next.records = o.records := by
  have hrecord := record_of_prepare_error h {}
  rcases o.record_cases {} e with ⟨guard, err', -, hnext, -⟩ |
    ⟨node, way, value, shadow, r, guard, -, -, -, -, -, -, -, hanswer⟩
  · rw [hrecord] at hnext
    dsimp only at hnext
    rw [hnext]
    rfl
  · rw [hrecord] at hanswer
    cases hanswer

/-- Where a worker is in a request. -/
inductive Stage (o : Overlay)
  /-- No request is under way; the answer is that to the last one. -/
  | idle (answer : Verdict (Option NodeId))
  /-- The edit is planned. -/
  | planned (p : o.Pending)
  /-- The shared guard has accepted the length of the path. -/
  | admitted (p : o.Pending)
  /-- The shared guard has granted an edit. -/
  | reserved (p : o.Pending)

end Overlay

open Overlay (Pending Stage)

/-- An overlay and where its worker is. -/
structure Worker where
  overlay : Overlay
  stage : overlay.Stage := .idle (.ok none)

namespace Worker

/-- Begin with a request, up to the first operation on the shared guard. A request that records
nothing is carried out at once, and a worker that is busy takes none. -/
def request (w : Worker) (g : SharedGuard) (call : OverlayCall) : Worker :=
  match w.stage with
  | .idle _ =>
    match call.edit? w.overlay with
    | none => ⟨(w.overlay.perform g call).1, .idle (w.overlay.perform g call).2.2⟩
    | some e =>
      match w.overlay.prepare e with
      | .error (o, err) => ⟨o, .idle (.error err)⟩
      | .ok p => ⟨w.overlay, .planned p⟩
  | _ => w

/-- Go on with a request by one step. -/
def advance (w : Worker) (g : SharedGuard) : Worker × SharedGuard :=
  match w.stage with
  | .idle _ => (w, g)
  | .planned p =>
    match g.admitDepth p.way.length (some p.target) with
    | .error err => (⟨p.refused, .idle (.error err)⟩, g)
    | .ok admitted => (⟨w.overlay, .admitted p⟩, admitted)
  | .admitted p =>
    match g.reserve (some p.target) with
    | .error err => (⟨p.refused, .idle (.error err)⟩, g)
    | .ok reserved => (⟨w.overlay, .reserved p⟩, reserved)
  | .reserved p =>
    let (next, answer) := p.inside.carryOut p.target p.edit p.way p.value
    (⟨next.leave, .idle (answer.map fun _ => none)⟩, g)

section Steps

variable {o : Overlay} {p : o.Pending} {g g' : SharedGuard} {err : Error}

theorem advance_planned_error (h : g.admitDepth p.way.length (some p.target) = .error err) :
    (⟨o, .planned p⟩ : Worker).advance g = (⟨p.refused, .idle (.error err)⟩, g) := by
  simp only [advance, h]

theorem advance_planned_ok (h : g.admitDepth p.way.length (some p.target) = .ok g') :
    (⟨o, .planned p⟩ : Worker).advance g = (⟨o, .admitted p⟩, g') := by
  simp only [advance, h]

theorem advance_admitted_error (h : g.reserve (some p.target) = .error err) :
    (⟨o, .admitted p⟩ : Worker).advance g = (⟨p.refused, .idle (.error err)⟩, g) := by
  simp only [advance, h]

theorem advance_admitted_ok (h : g.reserve (some p.target) = .ok g') :
    (⟨o, .admitted p⟩ : Worker).advance g = (⟨o, .reserved p⟩, g') := by
  simp only [advance, h]

/-- The last step of a request leaves the overlay as it was, or writes to the log. -/
theorem advance_reserved_cases (p : o.Pending) (g : SharedGuard) :
    (∃ err, o.shadow.rebuild p.way p.value = (o.shadow, .error err) ∧
      (⟨o, .reserved p⟩ : Worker).advance g = (⟨p.refused, .idle (.error err)⟩, g)) ∨
    ∃ shadow rebuilt, o.shadow.rebuild p.way p.value = (shadow, .ok rebuilt) ∧
      (⟨o, .reserved p⟩ : Worker).advance g =
        (⟨p.done shadow rebuilt, .idle (.ok none)⟩, g) := by
  rcases p.inside.carryOut_cases p.target p.edit p.way p.value with
    ⟨err, hrebuild, hcarry⟩ | ⟨shadow, rebuilt, hrebuild, hcarry⟩
  · refine Or.inl ⟨err, hrebuild, ?_⟩
    unfold advance
    dsimp only
    rw [hcarry]
    rfl
  · refine Or.inr ⟨shadow, rebuilt, hrebuild, ?_⟩
    unfold advance
    dsimp only
    rw [hcarry]
    rfl

end Steps

/-! ### Requests with nobody in between -/

/-- Go on with a request to its end. -/
def finish (w : Worker) (g : SharedGuard) : Worker × SharedGuard :=
  let first := w.advance g
  let second := first.1.advance first.2
  second.1.advance second.2

section Finishing

variable {o : Overlay} {p : o.Pending} {g g' : SharedGuard} {err : Error}

theorem finish_reserved (p : o.Pending) (g : SharedGuard) :
    (⟨o, .reserved p⟩ : Worker).finish g = (((⟨o, .reserved p⟩ : Worker).advance g).1, g) := rfl

theorem finish_admitted_error (h : g.reserve (some p.target) = .error err) :
    (⟨o, .admitted p⟩ : Worker).finish g = (⟨p.refused, .idle (.error err)⟩, g) := by
  unfold finish
  rw [advance_admitted_error h]
  rfl

theorem finish_admitted_ok (h : g.reserve (some p.target) = .ok g') :
    (⟨o, .admitted p⟩ : Worker).finish g = (⟨o, .reserved p⟩ : Worker).finish g' := by
  unfold finish
  rw [advance_admitted_ok h]
  rfl

theorem finish_planned_error (h : g.admitDepth p.way.length (some p.target) = .error err) :
    (⟨o, .planned p⟩ : Worker).finish g = (⟨p.refused, .idle (.error err)⟩, g) := by
  unfold finish
  rw [advance_planned_error h]
  rfl

theorem finish_planned_ok (h : g.admitDepth p.way.length (some p.target) = .ok g') :
    (⟨o, .planned p⟩ : Worker).finish g = (⟨o, .admitted p⟩ : Worker).finish g' := by
  -- the last of three steps from here on finds the worker idle
  unfold finish
  rw [advance_planned_ok h]
  dsimp only
  cases hreserve : g'.reserve (some p.target) with
  | error err =>
    rw [advance_admitted_error hreserve]
    rfl
  | ok reserved =>
    rw [advance_admitted_ok hreserve]
    rfl

theorem finish_planned (p : o.Pending) (g : SharedGuard) :
    (⟨o, .planned p⟩ : Worker).finish g =
      (⟨(p.complete g).1, .idle ((p.complete g).2.2.map fun _ => none)⟩, (p.complete g).2.1) := by
  unfold Pending.complete Overlay.settle
  cases hdepth : g.admitDepth p.way.length (some p.target) with
  | error err =>
    rw [finish_planned_error hdepth]
    rfl
  | ok admitted =>
    rw [finish_planned_ok hdepth]
    dsimp only
    cases hreserve : admitted.reserve (some p.target) with
    | error err =>
      rw [finish_admitted_error hreserve]
      rfl
    | ok reserved =>
      rw [finish_admitted_ok hreserve, finish_reserved]
      rfl

end Finishing

/-- The steps of a request, one right after the other, are the request. -/
theorem finish_request {w : Worker} {last : Verdict (Option NodeId)} (h : w.stage = .idle last)
    (g : SharedGuard) (call : OverlayCall) :
    (w.request g call).finish g =
      (⟨(w.overlay.perform g call).1, .idle (w.overlay.perform g call).2.2⟩,
        (w.overlay.perform g call).2.1) := by
  unfold request
  simp only [h]
  rcases w.overlay.perform_cases call with ⟨n, rfl⟩ | ⟨e, hedit, hperform⟩ |
    ⟨err, hedit, hperform⟩
  · rfl
  · rw [hperform, Overlay.unitAnswer]
    simp only [hedit]
    cases hprepare : w.overlay.prepare e with
    | error refusal =>
      obtain ⟨o, err⟩ := refusal
      rw [Overlay.record_of_prepare_error hprepare]
      rfl
    | ok p =>
      rw [Overlay.record_of_prepare_ok hprepare]
      exact finish_planned p g
  · simp only [hedit, hperform]
    rfl

end Worker

/-- A view and the workers that it has issued overlays to. -/
structure Workshop where
  view : View
  workers : List Worker := []

namespace Workshop

/-- What can happen in a workshop. -/
inductive Act
  /-- An overlay is issued for the whole tree. -/
  | issue
  /-- An overlay is asked for that is restricted to a block. -/
  | issueFor (block : NodeId)
  /-- The worker of the given number begins with a request. -/
  | request (k : Nat) (call : OverlayCall)
  /-- The worker of the given number goes on by one step. -/
  | resume (k : Nat)

/-- The workshop after one act. -/
def act (s : Workshop) : Act → Workshop
  | .issue =>
    { view := s.view.overlay.1, workers := s.workers ++ [{ overlay := s.view.overlay.2 }] }
  | .issueFor block =>
    match s.view.overlayForBlock block with
    | .ok (view, o) => { view, workers := s.workers ++ [{ overlay := o }] }
    | .error _ => s
  | .request k call =>
    match s.workers[k]? with
    | some w => { s with workers := s.workers.set k (w.request s.view.shared call) }
    | none => s
  | .resume k =>
    match s.workers[k]? with
    | some w =>
      { view := { s.view with shared := (w.advance s.view.shared).2 }
        workers := s.workers.set k (w.advance s.view.shared).1 }
    | none => s

/-- The acts of a list in order. -/
def run (s : Workshop) (acts : List Act) : Workshop :=
  acts.foldl act s

/-- A tree is offered, and no overlay issued yet. -/
def start (id : Nat) (t : Tree) (config : Config) : Workshop :=
  { view := .ofTree id t config }

/-- The edits that the view has counted. -/
def count (s : Workshop) : Nat :=
  s.view.shared.modifications

/-- The view and the overlays, without where their workers are. -/
def toSession (s : Workshop) : Session :=
  { view := s.view, overlays := s.workers.map (·.overlay) }

variable {s s' : Workshop} {k : Nat} {w : Worker} {acts : List Act}

theorem run_append (s : Workshop) (acts more : List Act) :
    s.run (acts ++ more) = (s.run acts).run more :=
  List.foldl_append

theorem run_append_singleton (s : Workshop) (acts : List Act) (a : Act) :
    s.run (acts ++ [a]) = (s.run acts).act a := by
  rw [run_append]
  rfl

theorem act_request (h : s.workers[k]? = some w) (call : OverlayCall) :
    s.act (.request k call) =
      { s with workers := s.workers.set k (w.request s.view.shared call) } := by
  simp only [act, h]

theorem act_resume (h : s.workers[k]? = some w) :
    s.act (.resume k) =
      { view := { s.view with shared := (w.advance s.view.shared).2 }
        workers := s.workers.set k (w.advance s.view.shared).1 } := by
  simp only [act, h]

end Workshop

end TreeEdit
