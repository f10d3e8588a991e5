import TreeEdit.Proofs.Interleaving

/-!
# The budget of a view

The shared guard is used in the middle of requests that overlap, and a request can still be refused
after it has been granted an edit. `Worker.Move` lists what one step of a worker can do to the guard
and to its log, and `Workshop.Within` is what every step keeps: the guard is within its limits and
has counted every record and every edit that is granted and not in a log yet. So the budget is never
overrun, at whatever moment one looks: `Workshop.budget_not_overrun`.
-/

namespace TreeEdit

/-! ### Operations on a shared guard -/

namespace SharedGuard

variable {g : SharedGuard} {depth : Nat}

theorem reserve_of_lt (h : g.modifications < g.limits.maxModifications)
    (place : Option StableId) :
    g.reserve place = .ok { g with modifications := g.modifications + 1 } :=
  if_pos h

theorem reserve_of_le (h : g.limits.maxModifications ≤ g.modifications)
    (place : Option StableId) :
    g.reserve place =
      .error (.limit .modifications (g.modifications + 1) g.limits.maxModifications place) :=
  if_neg (Nat.not_lt.2 h)

theorem admitDepth_of_le (h : depth ≤ g.limits.maxDepth) (place : Option StableId) :
    g.admitDepth depth place = .ok (g.withDeepest (max g.deepest depth)) :=
  if_neg (Nat.not_lt.2 h)

theorem admitDepth_of_lt (h : g.limits.maxDepth < depth) (place : Option StableId) :
    g.admitDepth depth place = .error (.limit .recursionDepth depth g.limits.maxDepth place) :=
  if_pos h

/-- One operation. -/
inductive Op
  | reserve (place : Option StableId)
  | accept (depth : Nat) (place : Option StableId)

/-- Whether an operation asks for an edit. -/
def Op.isReserve : Op → Bool
  | reserve _ => true
  | accept .. => false

/-- The guard after an operation, or a refusal. -/
def serve (g : SharedGuard) : Op → Verdict SharedGuard
  | .reserve place => g.reserve place
  | .accept depth place => g.admitDepth depth place

/-- The guard after an operation that may have been refused. -/
def after (g : SharedGuard) (op : Op) : SharedGuard :=
  (g.serve op).toOption.getD g

/-- The number of operations of a list that ask for an edit and get it. -/
def granted (g : SharedGuard) : List Op → Nat
  | [] => 0
  | op :: ops => (if op.isReserve ∧ (g.serve op).isOk then 1 else 0) + (g.after op).granted ops

theorem limits_after (g : SharedGuard) (op : Op) : (g.after op).limits = g.limits := by
  rw [after]
  cases h : g.serve op with
  | error err => rfl
  | ok next =>
    cases op with
    | reserve place =>
      rw [reserve_eq_ok h]
      rfl
    | accept depth place =>
      rw [admitDepth_eq_ok h]
      rfl

theorem modifications_after_accept (g : SharedGuard) (depth : Nat) (place : Option StableId) :
    (g.after (.accept depth place)).modifications = g.modifications := by
  rw [after]
  cases h : g.serve (.accept depth place) with
  | error err => rfl
  | ok next =>
    rw [admitDepth_eq_ok h]
    rfl

/-- Of the operations that ask for an edit, as many get it as there are edits left. -/
theorem granted_eq_min (ops : List Op) (h : g.modifications ≤ g.limits.maxModifications) :
    g.granted ops =
      min (ops.countP Op.isReserve) (g.limits.maxModifications - g.modifications) := by
  induction ops generalizing g with
  | nil => simp [granted]
  | cons op ops ih =>
    rw [granted]
    cases op with
    | accept depth place =>
      have hcount := modifications_after_accept g depth place
      have hlimits := limits_after g (.accept depth place)
      rw [ih (by rwa [hcount, hlimits]), hcount, hlimits]
      simp [Op.isReserve]
    | reserve place =>
      rcases Nat.lt_or_ge g.modifications g.limits.maxModifications with hlt | hge
      · have hafter : g.after (.reserve place) =
            { g with modifications := g.modifications + 1 } := by
          rw [after, serve, reserve_of_lt hlt]
          rfl
        rw [hafter, ih (show g.modifications + 1 ≤ g.limits.maxModifications from hlt), serve,
          reserve_of_lt hlt, List.countP_cons_of_pos rfl]
        simp only [Op.isReserve, Except.isOk, Except.toBool, and_self, if_true]
        omega
      · have hafter : g.after (.reserve place) = g := by
          rw [after, serve, reserve_of_le hge]
          rfl
        rw [hafter, ih h, serve, reserve_of_le hge]
        simp only [Except.isOk, Except.toBool, Bool.false_eq_true, and_false, if_false]
        omega

end SharedGuard

/-! ### What a step can do -/

/-- What one step of a worker does to it and to the shared guard. -/
inductive Worker.Move (w : Worker) (g : SharedGuard) : Worker → SharedGuard → Prop
  /-- A worker that is busy is asked to begin, or one that is idle to go on. -/
  | stays : Move w g w g
  /-- The request is answered, and the log is as it was. -/
  | answered {o : Overlay} (answer : Verdict (Option NodeId))
      (log : o.records = w.overlay.records) : Move w g ⟨o, .idle answer⟩ g
  | planned (p : w.overlay.Pending) : Move w g ⟨w.overlay, .planned p⟩ g
  | admitted (p : w.overlay.Pending) (before : w.stage = .planned p)
      (fits : p.way.length ≤ g.limits.maxDepth) :
      Move w g ⟨w.overlay, .admitted p⟩ (g.withDeepest (max g.deepest p.way.length))
  | reserved (p : w.overlay.Pending) (before : w.stage = .admitted p)
      (left : g.modifications < g.limits.maxModifications) :
      Move w g ⟨w.overlay, .reserved p⟩ { g with modifications := g.modifications + 1 }
  | recorded {o : Overlay} (p : w.overlay.Pending) (before : w.stage = .reserved p) (r : Record)
      (log : o.records = w.overlay.records ++ [r]) : Move w g ⟨o, .idle (.ok none)⟩ g

namespace Worker

variable {w w' : Worker} {g g' : SharedGuard}

theorem move_request (w : Worker) (g : SharedGuard) (call : OverlayCall) :
    Move w g (w.request g call) g := by
  obtain ⟨o, stage⟩ := w
  cases stage with
  | idle answer =>
    unfold request
    dsimp only
    cases hedit : call.edit? o with
    | none => exact .answered _ (Overlay.records_perform hedit g)
    | some e =>
      dsimp only
      cases hprepare : o.prepare e with
      | error refusal =>
        obtain ⟨next, err⟩ := refusal
        exact .answered _ (Overlay.records_of_prepare_error hprepare)
      | ok p => exact Move.planned (w := ⟨o, .idle answer⟩) p
  | planned p => exact .stays
  | admitted p => exact .stays
  | reserved p => exact .stays

theorem move_advance (w : Worker) (g : SharedGuard) :
    Move w g (w.advance g).1 (w.advance g).2 := by
  obtain ⟨o, stage⟩ := w
  cases stage with
  | idle answer => exact .stays
  | planned p =>
    rcases Nat.lt_or_ge g.limits.maxDepth p.way.length with hlt | hge
    · rw [advance_planned_error (SharedGuard.admitDepth_of_lt hlt _)]
      exact .answered _ rfl
    · rw [advance_planned_ok (SharedGuard.admitDepth_of_le hge _)]
      exact Move.admitted (w := ⟨o, .planned p⟩) p rfl hge
  | admitted p =>
    rcases Nat.lt_or_ge g.modifications g.limits.maxModifications with hlt | hge
    · rw [advance_admitted_ok (SharedGuard.reserve_of_lt hlt _)]
      exact Move.reserved (w := ⟨o, .admitted p⟩) p rfl hlt
    · rw [advance_admitted_error (SharedGuard.reserve_of_le hge _)]
      exact .answered _ rfl
  | reserved p =>
    rcases advance_reserved_cases p g with ⟨err, -, hlast⟩ | ⟨shadow, rebuilt, -, hlast⟩
    · rw [hlast]
      exact .answered _ rfl
    · rw [hlast]
      exact Move.recorded (w := ⟨o, .reserved p⟩) p rfl _ (p.records_done shadow rebuilt)

/-- Whether an edit has been granted that is not in the log yet. -/
def isReserved (w : Worker) : Bool :=
  match w.stage with
  | .reserved _ => true
  | _ => false

/-- The length of the path that the shared guard has accepted in the request under way. -/
def reach (w : Worker) : Nat :=
  match w.stage with
  | .admitted p => p.way.length
  | .reserved p => p.way.length
  | _ => 0

namespace Move

theorem limits_eq (h : Move w g w' g') : g'.limits = g.limits := by
  cases h <;> rfl

theorem count_le (h : Move w g w' g') (hle : g.modifications ≤ g.limits.maxModifications) :
    g'.modifications ≤ g.limits.maxModifications := by
  cases h with
  | reserved p before left => exact left
  | _ => exact hle

theorem deepest_le (h : Move w g w' g') (hle : g.deepest ≤ g.limits.maxDepth) :
    g'.deepest ≤ g.limits.maxDepth := by
  cases h with
  | admitted p before fits => exact Nat.max_le.2 ⟨hle, fits⟩
  | _ => exact hle

theorem le_deepest (h : Move w g w' g') : g.deepest ≤ g'.deepest := by
  cases h with
  | admitted p before fits => exact Nat.le_max_left _ _
  | _ => exact Nat.le_refl _

/-- What is in the log or has been granted for it is counted. A request that is refused after that
is the only thing that is counted and gets lost. -/
theorem taken_le (h : Move w g w' g') :
    w'.overlay.recordCount + (if w'.isReserved then 1 else 0) + g.modifications ≤
      w.overlay.recordCount + (if w.isReserved then 1 else 0) + g'.modifications := by
  cases h with
  | stays => exact Nat.le_refl _
  | @answered o answer log =>
    have hlog : o.recordCount = w.overlay.recordCount := by
      rw [← Overlay.length_records, log, Overlay.length_records]
    simp only [isReserved, Bool.false_eq_true, if_false]
    omega
  | planned p =>
    simp only [isReserved, Bool.false_eq_true, if_false]
    omega
  | admitted p before fits =>
    simp only [isReserved, Bool.false_eq_true, if_false, SharedGuard.withDeepest]
    omega
  | reserved p before left =>
    simp only [isReserved, if_true]
    omega
  | @recorded o p before r log =>
    have hlog : o.recordCount = w.overlay.recordCount + 1 := by
      rw [← Overlay.length_records, log, List.length_append, Overlay.length_records]
      rfl
    simp only [isReserved, before, Bool.false_eq_true, if_true, if_false]
    omega

theorem reach_le (h : Move w g w' g') (hle : w.reach ≤ g.deepest) : w'.reach ≤ g'.deepest := by
  cases h with
  | stays => exact hle
  | answered answer log => exact Nat.zero_le _
  | planned p => exact Nat.zero_le _
  | admitted p before fits => exact Nat.le_max_right _ _
  | reserved p before left =>
    simp only [reach, before] at hle ⊢
    exact hle
  | recorded p before r log => exact Nat.zero_le _

/-- A record is written only under an edit that has been granted. -/
theorem records_cases (h : Move w g w' g') :
    w'.overlay.records = w.overlay.records ∨
      ∃ p r, w.stage = .reserved p ∧ w'.overlay.records = w.overlay.records ++ [r] := by
  cases h with
  | answered answer log => exact Or.inl log
  | recorded p before r log => exact Or.inr ⟨p, r, before, log⟩
  | _ => exact Or.inl rfl

end Move

end Worker

/-! ### Runs -/

theorem countP_set_add {α : Type} {l : List α} {k : Nat} {a : α} (p : α → Bool)
    (h : l[k]? = some a) (b : α) :
    (l.set k b).countP p + (if p a then 1 else 0) = l.countP p + (if p b then 1 else 0) := by
  obtain ⟨hk, rfl⟩ := List.getElem?_eq_some_iff.1 h
  have hpos : p l[k] = true → 0 < l.countP p := fun hp =>
    List.countP_pos_iff.2 ⟨l[k], List.getElem_mem hk, hp⟩
  rw [List.countP_set hk]
  split
  · rename_i hp
    have := hpos hp
    omega
  · omega

namespace Workshop

open Session (recordTotal)

variable {s s' : Workshop} {k : Nat} {w : Worker} {acts more : List Act} {r : Record} {way : Path}
  {limits : Limits}

/-- What one act does to a workshop. -/
inductive Step (s : Workshop) : Workshop → Prop
  | stays : Step s s
  | issued (block : Option NodeId) :
      Step s
        { view := s.view.issued
          workers := s.workers ++ [{ overlay := s.view.newOverlay block }] }
  | moved {k : Nat} {w w' : Worker} {g : SharedGuard} (get : s.workers[k]? = some w)
      (move : w.Move s.view.shared w' g) :
      Step s { view := { s.view with shared := g }, workers := s.workers.set k w' }

theorem step_act (s : Workshop) (a : Act) : Step s (s.act a) := by
  cases a with
  | issue => exact .issued none
  | issueFor block =>
    simp only [act, View.overlayForBlock]
    cases s.view.checkBlock block with
    | error err => exact .stays
    | ok u => exact .issued (some block)
  | request k call =>
    cases hget : s.workers[k]? with
    | none =>
      simp only [act, hget]
      exact .stays
    | some w =>
      rw [act_request hget]
      exact .moved hget (w.move_request s.view.shared call)
  | resume k =>
    cases hget : s.workers[k]? with
    | none =>
      simp only [act, hget]
      exact .stays
    | some w =>
      rw [act_resume hget]
      exact .moved hget (w.move_advance s.view.shared)

/-- The shared guard is within its limits, it has counted every record and every edit that has been
granted, and it has seen every path that it has accepted in a request under way. -/
structure Within (limits : Limits) (s : Workshop) : Prop where
  limits_eq : s.view.shared.limits = limits
  count_le : s.count ≤ limits.maxModifications
  taken_le : recordTotal s.toSession.overlays + s.workers.countP Worker.isReserved ≤ s.count
  deepest_le : s.view.shared.deepest ≤ limits.maxDepth
  reach_le : ∀ w ∈ s.workers, w.reach ≤ s.view.shared.deepest

theorem Within.start (id : Nat) (t : Tree) (config : Config) :
    Within config.batch (start id t config) where
  limits_eq := rfl
  count_le := Nat.zero_le _
  taken_le := Nat.le_refl _
  deepest_le := Nat.zero_le _
  reach_le w hw := by cases hw

theorem Within.step (h : Within limits s) (hstep : Step s s') : Within limits s' := by
  cases hstep with
  | stays => exact h
  | issued block =>
    refine ⟨h.limits_eq, h.count_le, ?_, h.deepest_le, fun w hw => ?_⟩
    · have htaken := h.taken_le
      simp only [toSession, List.map_append, List.countP_append, Session.recordTotal_append]
      exact htaken
    · rcases List.mem_append.1 hw with hw | hw
      · exact h.reach_le w hw
      · rw [List.mem_singleton.1 hw]
        exact Nat.zero_le _
  | @moved k w w' g get move =>
    have hlimits := h.limits_eq
    have hcount := h.count_le
    have hdeepest := h.deepest_le
    rw [← hlimits] at hcount hdeepest
    refine ⟨move.limits_eq.trans hlimits, ?_, ?_, ?_, fun v hv => ?_⟩
    · rw [← hlimits]
      exact move.count_le hcount
    · -- only one worker moves, so its own log and grant are all that changes against the count
      have hget : s.toSession.overlays[k]? = some w.overlay := by simp [toSession, get]
      have hrecords := Session.recordTotal_set hget w'.overlay
      have hreserved := countP_set_add Worker.isReserved get w'
      have hmove := move.taken_le
      have htaken := h.taken_le
      simp only [toSession, count, List.map_set] at hrecords htaken ⊢
      omega
    · rw [← hlimits]
      exact move.deepest_le hdeepest
    · rcases List.mem_or_eq_of_mem_set hv with hv | rfl
      · exact Nat.le_trans (h.reach_le v hv) move.le_deepest
      · exact move.reach_le (h.reach_le w (List.mem_of_getElem? get))

theorem Within.run (h : Within limits s) (acts : List Act) : Within limits (s.run acts) := by
  induction acts generalizing s with
  | nil => exact h
  | cons a acts ih => exact ih (h.step (step_act s a))

theorem le_deepest_step (hstep : Step s s') : s.view.shared.deepest ≤ s'.view.shared.deepest := by
  cases hstep with
  | stays => exact Nat.le_refl _
  | issued block => exact Nat.le_refl _
  | moved get move => exact move.le_deepest

theorem le_deepest_run (s : Workshop) (acts : List Act) :
    s.view.shared.deepest ≤ (s.run acts).view.shared.deepest := by
  induction acts generalizing s with
  | nil => exact Nat.le_refl _
  | cons a acts ih => exact Nat.le_trans (le_deepest_step (step_act s a)) (ih (s.act a))

/-! ### Accepted records -/

/-- At some moment of a run a worker that has been granted an edit writes a record. The path is that
of the plan. -/
inductive Accepted (s : Workshop) (acts : List Act) (k : Nat) (r : Record) : Path → Prop
  | intro {part : List Act} {a : Act} {w w' : Worker} (p : w.overlay.Pending)
      (now : part ++ [a] <+: acts) (before : (s.run part).workers[k]? = some w)
      (granted : w.stage = .reserved p) (next : (s.run (part ++ [a])).workers[k]? = some w')
      (log : w'.overlay.records = w.overlay.records ++ [r]) : Accepted s acts k r p.way

theorem Accepted.mono (h : s.Accepted acts k r way) (hmore : acts <+: more) :
    s.Accepted more k r way := by
  cases h with
  | intro p now before granted next log => exact .intro p (now.trans hmore) before granted next log

theorem Accepted.length_le (h : s.Accepted acts k r way) (hs : Within limits s) :
    way.length ≤ (s.run acts).view.shared.deepest := by
  cases h with
  | @intro part a w w' p now before granted next log =>
    -- the guard had seen the path when the edit was granted, and it forgets none
    have hreach := (hs.run part).reach_le w (List.mem_of_getElem? before)
    simp only [Worker.reach, granted] at hreach
    obtain ⟨rest, rfl⟩ := (List.prefix_append part [a]).trans now
    rw [run_append]
    exact Nat.le_trans hreach (le_deepest_run (s.run part) rest)

/-- Every record of a worker was in its log one act ago, or is written now. -/
theorem mem_records_step (hstep : Step s s') (hget : s'.workers[k]? = some w)
    (hr : r ∈ w.overlay.records) :
    (∃ v, s.workers[k]? = some v ∧ r ∈ v.overlay.records) ∨
      ∃ v, ∃ p : v.overlay.Pending, s.workers[k]? = some v ∧ v.stage = .reserved p ∧
        w.overlay.records = v.overlay.records ++ [r] := by
  cases hstep with
  | stays => exact Or.inl ⟨w, hget, hr⟩
  | issued block =>
    by_cases hk : k < s.workers.length
    · rw [List.getElem?_append_left hk] at hget
      exact Or.inl ⟨w, hget, hr⟩
    · rw [List.getElem?_append_right (Nat.not_lt.1 hk)] at hget
      rw [List.mem_singleton.1 (List.mem_of_getElem? hget)] at hr
      cases hr
  | @moved j v v' g get move =>
    by_cases hkj : j = k
    · subst hkj
      obtain rfl : v' = w := by
        rw [List.getElem?_set_self (List.getElem?_eq_some_iff.1 get).1] at hget
        exact Option.some.inj hget
      rcases move.records_cases with hsame | ⟨p, new, granted, hlog⟩
      · exact Or.inl ⟨v, get, hsame ▸ hr⟩
      · rw [hlog] at hr
        rcases List.mem_append.1 hr with hr | hr
        · exact Or.inl ⟨v, get, hr⟩
        · rw [← List.mem_singleton.1 hr] at hlog
          exact Or.inr ⟨v, p, get, granted, hlog⟩
    · rw [List.getElem?_set_ne hkj] at hget
      exact Or.inl ⟨w, hget, hr⟩

theorem exists_accepted {id : Nat} {t : Tree} {config : Config}
    (hget : ((start id t config).run acts).workers[k]? = some w) (hr : r ∈ w.overlay.records) :
    ∃ way, (start id t config).Accepted acts k r way := by
  induction acts using List.reverseRecOn generalizing w with
  | nil => cases hget
  | append_singleton acts a ih =>
    have hprefix : acts <+: acts ++ [a] := List.prefix_append acts [a]
    have hnow := hget
    rw [run_append_singleton] at hget
    rcases mem_records_step (step_act _ a) hget hr with ⟨v, hv, hrv⟩ | ⟨v, p, hv, granted, hlog⟩
    · obtain ⟨way, hway⟩ := ih hv hrv
      exact ⟨way, hway.mono hprefix⟩
    · exact ⟨p.way, .intro p (List.prefix_refl _) hv granted hnow hlog⟩

/-! ### The budget -/

/-- A worker is about to ask for an edit. It is refused exactly if all are taken, which leaves the
shared guard as it was. -/
structure Reserves (limits : Limits) (s : Workshop) (k : Nat) {o : Overlay} (p : o.Pending) :
    Prop where
  refused_iff : (∃ err, s.view.shared.reserve (some p.target) = .error err) ↔
    s.count = limits.maxModifications
  refused : s.count = limits.maxModifications →
    (s.act (.resume k)).view.shared = s.view.shared ∧
      (s.act (.resume k)).workers[k]? = some ⟨p.refused, .idle (.error (.limit .modifications
        (limits.maxModifications + 1) limits.maxModifications (some p.target)))⟩
  granted : s.count ≠ limits.maxModifications →
    (s.act (.resume k)).count = s.count + 1 ∧
      (s.act (.resume k)).workers[k]? = some ⟨o, .reserved p⟩

theorem Within.reserves (h : Within limits s) {o : Overlay} {p : o.Pending}
    (hget : s.workers[k]? = some ⟨o, .admitted p⟩) : s.Reserves limits k p := by
  obtain rfl := h.limits_eq
  have hle : s.view.shared.modifications ≤ s.view.shared.limits.maxModifications := h.count_le
  have hk : k < s.workers.length := (List.getElem?_eq_some_iff.1 hget).1
  rcases Nat.lt_or_ge s.view.shared.modifications s.view.shared.limits.maxModifications with
    hlt | hge
  · have hne : s.count ≠ s.view.shared.limits.maxModifications := Nat.ne_of_lt hlt
    have hreserve := SharedGuard.reserve_of_lt hlt (some p.target)
    refine ⟨?_, fun heq => absurd heq hne, fun _ => ?_⟩
    · simp [hreserve, hne]
    · rw [act_resume hget, Worker.advance_admitted_ok hreserve]
      exact ⟨rfl, List.getElem?_set_self hk⟩
  · have heq : s.count = s.view.shared.limits.maxModifications := Nat.le_antisymm hle hge
    have hreserve := SharedGuard.reserve_of_le hge (some p.target)
    refine ⟨?_, fun _ => ?_, fun hne => absurd heq hne⟩
    · simp [hreserve, heq]
    · rw [act_resume hget, Worker.advance_admitted_error hreserve, ← heq]
      exact ⟨rfl, List.getElem?_set_self hk⟩

/-- Whatever tree is offered, and in whatever order the steps of the workers come, at every moment
the shared guard is within its limits and has counted every record. Every record was accepted along
a path no longer than the deepest that the guard has seen, and an edit is refused exactly if all are
taken. Of any operations on a fresh guard that ask for an edit, as many get it as the limit says. -/
theorem budget_not_overrun (id : Nat) (t : Tree) (config : Config) (acts : List Act) :
    (((start id t config).run acts).count ≤ config.batch.maxModifications ∧
      recordTotal ((start id t config).run acts).toSession.overlays ≤
        ((start id t config).run acts).count) ∧
    (((start id t config).run acts).view.shared.deepest ≤ config.batch.maxDepth ∧
      ∀ k r way, (start id t config).Accepted acts k r way →
        way.length ≤ ((start id t config).run acts).view.shared.deepest) ∧
    (∀ k w r, ((start id t config).run acts).workers[k]? = some w → r ∈ w.overlay.records →
      ∃ way, (start id t config).Accepted acts k r way) ∧
    (∀ k o p, ((start id t config).run acts).workers[k]? = some ⟨o, .admitted p⟩ →
      ((start id t config).run acts).Reserves config.batch k p) ∧
    ∀ ops, ({ limits := config.batch } : SharedGuard).granted ops =
      min (ops.countP SharedGuard.Op.isReserve) config.batch.maxModifications := by
  have hstart := Within.start id t config
  have h := hstart.run acts
  refine ⟨⟨h.count_le, Nat.le_trans (Nat.le_add_right _ _) h.taken_le⟩,
    ⟨h.deepest_le, fun k r way haccepted => haccepted.length_le hstart⟩,
    fun k w r => exists_accepted, fun k o p => h.reserves, fun ops => ?_⟩
  exact SharedGuard.granted_eq_min ops (Nat.zero_le _)

/-- Two workers with one edit for both. Both have planned and have their paths accepted before the
second is granted the edit. -/
def contested : List Act :=
  [.issue, .issue, .request 0 (.shared (.setWhitespace 3 ⟨" ", ""⟩)),
    .request 1 (.shared (.setWhitespace 0 ⟨" ", ""⟩)), .resume 0, .resume 1, .resume 1]

/-- The edit is counted and not in a log yet, and the first worker is refused. -/
theorem budget_not_overrun_contested :
    ((start 0 Context.strayTree { batch := ⟨4, 1⟩ }).run contested).count = 1 ∧
      recordTotal ((start 0 Context.strayTree { batch := ⟨4, 1⟩ }).run
        contested).toSession.overlays = 0 ∧
      ∃ o, ∃ p : o.Pending,
        ((start 0 Context.strayTree { batch := ⟨4, 1⟩ }).run contested).workers[0]? =
          some ⟨o, .admitted p⟩ ∧
        ((start 0 Context.strayTree { batch := ⟨4, 1⟩ }).run
          (contested ++ [.resume 0])).workers[0]? =
            some ⟨p.refused, .idle (.error (.limit .modifications 2 1 (some p.target)))⟩ := by
  have hcount : ((start 0 Context.strayTree { batch := ⟨4, 1⟩ }).run contested).count = 1 := by
    decide +kernel
  refine ⟨hcount, by decide +kernel, ?_⟩
  have hstage : ((start 0 Context.strayTree { batch := ⟨4, 1⟩ }).run contested).workers[0]?.map
      (fun w => (w.isReserved, w.reach)) = some (false, 2) := by decide +kernel
  obtain ⟨⟨o, stage⟩, hget, hshape⟩ := Option.map_eq_some_iff.1 hstage
  cases stage with
  | idle answer => cases hshape
  | planned p => cases hshape
  | reserved p => cases hshape
  | admitted p =>
    have hreserves := (budget_not_overrun 0 Context.strayTree { batch := ⟨4, 1⟩ }
      contested).2.2.2.1 0 o p hget
    refine ⟨o, p, hget, ?_⟩
    rw [run_append_singleton]
    exact (hreserves.refused hcount).2

end Workshop

end TreeEdit
