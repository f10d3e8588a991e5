import TreeEdit.Proofs.Accounting

/-!
# Scripts and their verdicts

A script is a list of requests, each with whether it is accepted. `View.Plays` says that an overlay
of a view has gone through a script, with the guard that all overlays share in any state at each
request. Limits, blocks and the shared guard have a say in the verdicts, and in nothing else: two
overlays of one tree that go through one script do the same work, whatever their workers and views
are. They have the same shadow and have recorded the same edits.
-/

namespace TreeEdit

/-! ### Accepted edits -/

theorem Verdict.eq_ok_of_map {α : Type} {f : Unit → α} {x : Verdict Unit} {y : α}
    (h : x.map f = .ok y) : x = .ok () := by
  cases x with
  | error err => cases h
  | ok u => rfl

namespace Store

variable {s : Store} {f : Forward} {root : NodeId} {e : Edit}

/-- The limit on the length of paths decides whether there is a plan, not which. -/
theorem plan_unique {most most' : Nat} {way way' : Path} {value value' : Node}
    (h : s.plan f most root e = .ok (way, value))
    (h' : s.plan f most' root e = .ok (way', value')) :
    way = way' ∧ value = value' := by
  obtain ⟨hpath, current, hget, -, -, rfl, -⟩ := plan_eq_ok_iff.1 h
  obtain ⟨hpath', current', hget', -, -, rfl, -⟩ := plan_eq_ok_iff.1 h'
  obtain ⟨htarget, -, hup, -, -⟩ := path_eq_ok_iff.1 hpath
  obtain ⟨htarget', -, hup', -, -⟩ := path_eq_ok_iff.1 hpath'
  obtain rfl : current = current' := Option.some.inj (hget.symm.trans hget')
  have habove : way.above = way'.above := by
    have hclimb := climb_eq_false_iff.2 ⟨hup, Nat.le_max_left _ way'.above.length⟩
    have hclimb' := climb_eq_false_iff.2 ⟨hup', Nat.le_max_right way.above.length _⟩
    exact congrArg Prod.fst (hclimb.symm.trans hclimb')
  refine ⟨?_, rfl⟩
  obtain ⟨target, above⟩ := way
  obtain ⟨target', above'⟩ := way'
  dsimp only at htarget htarget' habove
  rw [htarget, htarget', habove]

end Store

namespace Overlay

variable {v w : View} {P Q : Overlay → Prop} {o o' a b : Overlay} {g g' : SharedGuard} {e : Edit}

/-- An edit that is accepted has been planned, and the shadow rebuilt. -/
theorem record_eq_ok (h : (o.record g e).2.2 = .ok ()) :
    ∃ node way value shadow r guard,
      o.shadow.plan o.forward o.guard.limits.maxDepth o.root (e.mapIds o.forward.resolve) =
        .ok (way, value) ∧
      o.shadow.rebuild way value = (shadow, .ok r) ∧
      (o.record g e).1 = { o.commit node e shadow r with guard } := by
  rcases o.record_cases g e with ⟨_, err, -, -, herr⟩ |
    ⟨node, way, value, shadow, r, guard, -, -, hplanned, -, -, hrebuild, hnext, -⟩
  · rw [herr] at h
    cases h
  · exact ⟨node.stableId, way, value, shadow, r, guard, hplanned, hrebuild, hnext⟩

/-! ### The same work -/

/-- Two overlays with the same shadow that have made the same nodes and recorded the same edits. The
workers, the views, the blocks and the counts of the guards may differ. -/
structure SameWork (a b : Overlay) : Prop where
  shadow : b.shadow = a.shadow
  root : b.root = a.root
  forward : b.forward = a.forward
  created : b.created = a.created
  edits : b.records.map (·.edit) = a.records.map (·.edit)

namespace SameWork

theorem recordCount_eq (h : SameWork a b) : b.recordCount = a.recordCount := by
  have hlength := congrArg List.length h.edits
  rwa [List.length_map, List.length_map, length_records, length_records] at hlength

theorem withDeepest (h : SameWork a b) (d d' : Nat) :
    SameWork (a.withDeepest d) (b.withDeepest d') :=
  ⟨h.shadow, h.root, h.forward, h.created, h.edits⟩

theorem create (h : SameWork a b) (n : Node) : SameWork (a.create n).1 (b.create n).1 := by
  unfold Overlay.create
  rw [h.shadow, h.forward, h.recordCount_eq]
  rcases a.shadow.alloc_cases (n.mapChildren a.forward.resolve) with ⟨err, herr⟩ | ⟨hok, -, -⟩
  · rw [herr]
    exact ⟨rfl, h.root, rfl, h.created, h.edits⟩
  · rw [hok]
    refine ⟨rfl, h.root, rfl, ?_, h.edits⟩
    show b.created ++ _ = a.created ++ _
    rw [h.created]

/-- An edit that both accept does the same to both. -/
theorem record (h : SameWork a b) {e : Edit} (ha : (a.record g e).2.2 = .ok ())
    (hb : (b.record g' e).2.2 = .ok ()) : SameWork (a.record g e).1 (b.record g' e).1 := by
  obtain ⟨node, way, value, shadow, r, guard, hplan, hrebuild, hnext⟩ := record_eq_ok ha
  obtain ⟨node', way', value', shadow', r', guard', hplan', hrebuild', hnext'⟩ := record_eq_ok hb
  rw [h.shadow, h.forward, h.root] at hplan'
  rw [h.shadow] at hrebuild'
  obtain ⟨rfl, rfl⟩ := Store.plan_unique hplan hplan'
  rw [hrebuild] at hrebuild'
  cases hrebuild'
  rw [hnext, hnext']
  refine ⟨rfl, rfl, ?_, h.created, ?_⟩
  · show b.forward.record r = a.forward.record r
    rw [h.forward]
  · show (b.commit node' e shadow r).records.map (·.edit) =
      (a.commit node e shadow r).records.map (·.edit)
    rw [records_commit, records_commit, List.map_append, List.map_append, h.edits, h.forward]
    rfl

theorem insert (h : SameWork a b) {side : Side} {parent new sibling : NodeId}
    (ha : (a.insert g side parent new sibling).2.2 = .ok ())
    (hb : (b.insert g' side parent new sibling).2.2 = .ok ()) :
    SameWork (a.insert g side parent new sibling).1 (b.insert g' side parent new sibling).1 := by
  unfold Overlay.insert at ha hb ⊢
  dsimp only at ha hb ⊢
  rw [h.shadow, h.forward] at hb ⊢
  cases hindex : a.shadow.siblingIndex (a.forward.resolve parent) (a.forward.resolve sibling)
      side.offset with
  | error err =>
    rw [hindex] at ha
    cases ha
  | ok index =>
    rw [hindex] at ha hb
    exact h.record ha hb

theorem of_accepted (h : SameWork a b) {request : OverlayCall} {id id' : Option NodeId}
    (ha : (a.perform g request).2.2 = .ok id) (hb : (b.perform g' request).2.2 = .ok id') :
    SameWork (a.perform g request).1 (b.perform g' request).1 := by
  cases request with
  | insertAt parent index new => exact h.record (Verdict.eq_ok_of_map ha) (Verdict.eq_ok_of_map hb)
  | shared call =>
    cases call with
    | create n => exact h.create n
    | insert side parent new sibling =>
      exact h.insert (Verdict.eq_ok_of_map ha) (Verdict.eq_ok_of_map hb)
    | replace parent old new =>
      exact h.record (Verdict.eq_ok_of_map ha) (Verdict.eq_ok_of_map hb)
    | remove parent child => exact h.record (Verdict.eq_ok_of_map ha) (Verdict.eq_ok_of_map hb)
    | setWhitespace node whitespace =>
      exact h.record (Verdict.eq_ok_of_map ha) (Verdict.eq_ok_of_map hb)
    | setComments node leading trailing =>
      exact h.record (Verdict.eq_ok_of_map ha) (Verdict.eq_ok_of_map hb)

/-- A request that gets the same verdict from two overlays that have done the same work. -/
theorem perform (h : SameWork a b) {request : OverlayCall}
    (verdict : (b.perform g' request).2.2.isOk = (a.perform g request).2.2.isOk) :
    SameWork (a.perform g request).1 (b.perform g' request).1 := by
  cases ha : (a.perform g request).2.2 with
  | ok id =>
    rw [ha] at verdict
    obtain ⟨id', hb⟩ := Verdict.exists_eq_ok verdict
    exact h.of_accepted ha hb
  | error err =>
    cases hb : (b.perform g' request).2.2 with
    | error err' =>
      obtain ⟨d, hd⟩ := eq_withDeepest_of_refused ha
      obtain ⟨d', hd'⟩ := eq_withDeepest_of_refused hb
      rw [hd, hd']
      exact h.withDeepest d d'
    | ok id =>
      rw [ha, hb] at verdict
      cases verdict

end SameWork

/-! ### Scripts -/

/-- An overlay goes through a script: requests, each with whether it is accepted. The guard that all
overlays of the view share may be in any state at each request; the condition holds of every state
that is reached. -/
inductive Plays (v : View) (P : Overlay → Prop) :
    Overlay → List (OverlayCall × Bool) → Overlay → Prop
  | done (o : Overlay) : Plays v P o [] o
  | call {o last : Overlay} {script : List (OverlayCall × Bool)} {accepted : Bool}
      (g : SharedGuard) (limits : g.limits = v.shared.limits) (request : OverlayCall)
      (verdict : (o.perform g request).2.2.isOk = accepted) (here : P (o.perform g request).1)
      (rest : Plays v P (o.perform g request).1 script last) :
      Plays v P o ((request, accepted) :: script) last

variable {script : List (OverlayCall × Bool)}

theorem Plays.runs (h : Plays v P o script o') (ho : v.Runs P o) : v.Runs P o' := by
  induction h with
  | done o => exact ho
  | call g limits request verdict here rest ih => exact ih (.call g limits request ho here)

/-- One script has one effect. -/
theorem SameWork.plays {a' b' : Overlay} (h : SameWork a b) (ha : Plays v P a script a')
    (hb : Plays w Q b script b') : SameWork a' b' := by
  induction ha generalizing b with
  | done a =>
    cases hb with
    | done b => exact h
  | @call a last script accepted g limits request verdict here rest ih =>
    cases hb with
    | call g' limits' _ verdict' here' rest' =>
      exact ih (h.perform (verdict'.trans verdict.symm)) rest'

end Overlay

/-- An overlay that the view has issued, after a script. -/
def View.Plays (v : View) (P : Overlay → Prop) (script : List (OverlayCall × Bool)) (o : Overlay) :
    Prop :=
  ∃ worker block, (∀ b, block = some b → v.checkBlock b = .ok ()) ∧
    P { v.newOverlay block with worker } ∧
    Overlay.Plays v P { v.newOverlay block with worker } script o

namespace View.Plays

variable {v w : View} {P Q : Overlay → Prop} {script : List (OverlayCall × Bool)} {o o' : Overlay}

theorem runs (h : v.Plays P script o) : v.Runs P o := by
  obtain ⟨worker, block, accepted, here, hplays⟩ := h
  exact hplays.runs (.issue worker block accepted here)

/-- Overlays of one tree that go through one script do the same work. -/
theorem sameWork (h : v.Plays P script o) (h' : w.Plays Q script o') (tree : w.tree = v.tree) :
    o.SameWork o' := by
  obtain ⟨worker, block, -, -, hplays⟩ := h
  obtain ⟨worker', block', -, -, hplays'⟩ := h'
  have hstart : Overlay.SameWork { v.newOverlay block with worker }
      { w.newOverlay block' with worker := worker' } := by
    refine ⟨?_, ?_, rfl, rfl, rfl⟩
    · show w.tree.store.layer = v.tree.store.layer
      rw [tree]
    · show w.tree.root = v.tree.root
      rw [tree]
  exact hstart.plays hplays hplays'

end View.Plays

/-! ### Scripts of given requests -/

/-- The script that requests amount to, with the shared guard as it is. -/
def Overlay.scriptOf (o : Overlay) (g : SharedGuard) :
    List OverlayCall → List (OverlayCall × Bool)
  | [] => []
  | call :: calls =>
    (call, (o.perform g call).2.2.isOk) :: (o.perform g call).1.scriptOf g calls

theorem Overlay.plays_run {v : View} {P : Overlay → Prop} {g : SharedGuard}
    (limits : g.limits = v.shared.limits) (o : Overlay) (calls : List OverlayCall)
    (here : ∀ part, part <+: calls → P (o.run g part)) :
    Plays v P o (o.scriptOf g calls) (o.run g calls) := by
  induction calls generalizing o with
  | nil => exact .done o
  | cons call calls ih =>
    refine .call g limits call rfl (here [call] (by simp)) (ih _ fun part hpart => ?_)
    exact here (call :: part) (List.cons_prefix_cons.2 ⟨rfl, hpart⟩)

theorem View.plays_overlayAfter {v : View} {P : Overlay → Prop} {worker : WorkerId}
    {script : List (OverlayCall × Bool)}
    (verdicts : ({ v.newOverlay none with worker } : Overlay).scriptOf v.shared
      (script.map (·.1)) = script)
    (here : ∀ part ∈ (script.map (·.1)).inits, P (v.overlayAfter worker part)) :
    v.Plays P script (v.overlayAfter worker (script.map (·.1))) := by
  refine ⟨worker, none, by simp, here [] (by simp), ?_⟩
  have hplays := Overlay.plays_run (v := v) (P := P) (g := v.shared) rfl
    { v.newOverlay none with worker } (script.map (·.1)) fun part hpart =>
      here part ((List.mem_inits _ _).2 hpart)
  rwa [verdicts] at hplays

end TreeEdit
