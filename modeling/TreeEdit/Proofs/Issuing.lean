import TreeEdit.Proofs.Interleaving

/-!
# The workers of a session

A view numbers the overlays that it issues by a counter of 32 bits, which goes back to zero after
4294967296 of them. A merge sorts logs by these numbers and takes logs of one number for the work of
one worker, so what is said of merges is about overlays whose workers differ. `Session.Numbered` is
what every act keeps: the overlays have the numbers from zero on, in the order in which they were
issued. So the workers differ exactly as long as the counter has not gone round
(`Session.Numbered.nodup_workers_iff`), and `Session.batch_of_run` has what a merge needs of any
overlays of a session, each taken once.
-/

namespace TreeEdit

variable {P : Overlay → Prop}

theorem Overlay.worker_perform (o : Overlay) (g : SharedGuard) (request : OverlayCall) :
    (o.perform g request).1.worker = o.worker := by
  have hstep := o.step_perform g request
  generalize (o.perform g request).1 = next at hstep ⊢
  cases hstep <;> rfl

/-- The overlays of a view do not depend on what it has counted. -/
theorem View.Runs.of_counts {v : View} {o : Overlay} (h : v.Runs P o) {g : SharedGuard}
    (limits : g.limits = v.shared.limits) (next : WorkerId) :
    ({ v with shared := g, nextWorker := next } : View).Runs P o := by
  induction h with
  | issue worker block accepted here => exact .issue worker block accepted here
  | call g' limits' request _ here ih => exact .call g' (limits'.trans limits.symm) request ih here

namespace Session

variable {s s' : Session} {acts : List Act} {os : List Overlay}

/-! ### The numbers of workers -/

/-- The first numbers that a view gives to workers. -/
def workerIds (n : Nat) : List WorkerId :=
  (List.range n).map (· % 4294967296)

theorem workerIds_succ (n : Nat) : workerIds (n + 1) = workerIds n ++ [n % 4294967296] := by
  simp [workerIds, List.range_succ]

theorem nodup_workerIds_iff {n : Nat} : (workerIds n).Nodup ↔ n ≤ 4294967296 := by
  constructor
  · intro h
    refine Nat.not_lt.1 fun hlt => ?_
    -- numbers zero and 4294967296 are the same
    have hinj := List.inj_on_of_nodup_map h (List.mem_range.2 hlt)
      (List.mem_range.2 (Nat.zero_lt_of_lt hlt)) (by decide)
    cases hinj
  · intro h
    refine List.nodup_range.map_on fun i hi j hj hij => ?_
    rwa [Nat.mod_eq_of_lt (Nat.lt_of_lt_of_le (List.mem_range.1 hi) h),
      Nat.mod_eq_of_lt (Nat.lt_of_lt_of_le (List.mem_range.1 hj) h)] at hij

/-- The overlays are numbered in the order in which they were issued, and the view goes on from
there. -/
structure Numbered (s : Session) : Prop where
  next : s.view.nextWorker = s.overlays.length % 4294967296
  workers : s.overlays.map (·.worker) = workerIds s.overlays.length

namespace Numbered

theorem start (id : Nat) (t : Tree) (config : Config) : (start id t config).Numbered :=
  ⟨rfl, rfl⟩

theorem step (h : s.Numbered) (hstep : Step s s') : s'.Numbered := by
  cases hstep with
  | stays => exact h
  | issued block accepted =>
    constructor
    · show (s.view.nextWorker + 1) % 4294967296 = _
      rw [h.next, List.length_append, Nat.mod_add_mod]
      rfl
    · rw [List.map_append, h.workers, List.length_append, List.length_singleton, workerIds_succ,
        ← h.next]
      rfl
  | @called k o get request =>
    constructor
    · rw [List.length_set]
      exact h.next
    · -- the number of a worker is put in its own place
      have hworker : (s.overlays.map (·.worker))[k]? = some o.worker := by simp [get]
      obtain ⟨hk, heq⟩ := List.getElem?_eq_some_iff.1 hworker
      rw [List.length_set, ← h.workers, List.map_set, Overlay.worker_perform, ← heq]
      exact List.set_getElem_self hk

theorem run (h : s.Numbered) (acts : List Act) : (s.run acts).Numbered := by
  induction acts generalizing s with
  | nil => exact h
  | cons a acts ih => exact ih (h.step (s.step_act a))

/-- The workers differ exactly as long as the counter has not gone round. -/
theorem nodup_workers_iff (h : s.Numbered) :
    (s.overlays.map (·.worker)).Nodup ↔ s.overlays.length ≤ 4294967296 := by
  rw [h.workers]
  exact nodup_workerIds_iff

end Numbered

/-! ### The overlays of a session -/

/-- One act leaves the overlays of a session in the runs of its view. -/
theorem runs_step (h : ∀ o ∈ s.overlays, s.view.Runs P o) (hstep : Step s s')
    (here : ∀ o ∈ s'.overlays, P o) : ∀ o ∈ s'.overlays, s'.view.Runs P o := by
  cases hstep with
  | stays => exact h
  | issued block accepted =>
    intro o ho
    rcases List.mem_append.1 ho with hold | hnew
    · exact (h o hold).of_counts rfl _
    · rw [List.mem_singleton.1 hnew] at ho ⊢
      exact .issue (v := s.view.issued) s.view.nextWorker block accepted (here _ ho)
  | @called k o get request =>
    intro p hp
    refine View.Runs.of_counts ?_ (o.limits_perform s.view.shared request) s.view.nextWorker
    rcases List.mem_or_eq_of_mem_set hp with hold | rfl
    · exact h p hold
    · exact .call s.view.shared rfl request (h o (List.mem_of_getElem? get)) (here _ hp)

/-- All overlays of a session are runs of its view, with what holds of them at every moment. -/
theorem runs_run (h : ∀ o ∈ s.overlays, s.view.Runs P o)
    (along : ∀ part, part <+: acts → ∀ o ∈ (s.run part).overlays, P o) :
    ∀ o ∈ (s.run acts).overlays, (s.run acts).view.Runs P o := by
  induction acts generalizing s with
  | nil => exact h
  | cons a acts ih =>
    refine ih (runs_step h (s.step_act a) (along [a] (by simp))) fun part hpart => ?_
    exact along (a :: part) (List.cons_prefix_cons.2 ⟨rfl, hpart⟩)

/-- What a merge needs of a batch, for overlays of a session that are taken once each: they are runs
of the view, and no two have the same worker. The view has issued at most 4294967296 overlays. -/
theorem batch_of_run (id : Nat) (t : Tree) (config : Config)
    (along : ∀ part, part <+: acts → ∀ o ∈ ((start id t config).run part).overlays, P o)
    (few : ((start id t config).run acts).overlays.length ≤ 4294967296)
    (batch : os.Subperm ((start id t config).run acts).overlays) :
    (∀ o ∈ os, ((start id t config).run acts).view.Runs P o) ∧ (os.map (·.worker)).Nodup := by
  constructor
  · intro o ho
    exact runs_run (fun o ho => by cases ho) along o (batch.subset ho)
  · have hnumbered := (Numbered.start id t config).run acts
    have hworkers := hnumbered.nodup_workers_iff.2 few
    obtain ⟨part, hperm, hsub⟩ := batch
    exact (hperm.map _).nodup_iff.1 (hworkers.sublist (hsub.map _))

end Session

end TreeEdit
