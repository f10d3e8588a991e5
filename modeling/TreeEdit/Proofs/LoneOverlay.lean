import TreeEdit.Proofs.Agreement
import TreeEdit.Proofs.Failures
import TreeEdit.Proofs.Interleaving

/-!
# An overlay that is alone on its view

An edit is held against two pairs of limits: those of its overlay, and those that all overlays of
the view share. A valid configuration gives the batch no less than each overlay, so one that is
alone should never meet the limits of the batch. The length of a path is compared twice, with the
larger limit the second time. The edits are counted twice, by the overlay when an edit is recorded
and by the view before the shadow is rebuilt. So the two counts have to be compared over whole runs:
`Session.count_le` says that the view is ahead of the logs by no more than the requests that were
refused for want of slots, and `Session.lone_overlay_spared` that an overlay is safe as long as
these are few.
-/

namespace TreeEdit

open Verdict (FailsFor)

/-! ### Refusals by an overlay's own guard -/

/-- A refusal for a limit that an edit has crossed names one of the given limits. -/
def Error.Reports (limits : Limits) : Error → Prop
  | .limit resource _ most _ =>
    resource = .recursionDepth ∧ most = limits.maxDepth ∨
      resource = .modifications ∧ most = limits.maxModifications
  | _ => True

namespace Error

variable {limits : Limits} {e : Error}

theorem IsLocal.reports (h : e.IsLocal) : e.Reports limits := by
  cases e with
  | limit resource attempted most place => exact h.elim
  | _ => trivial

theorem IsDepthLimit.reports (h : e.IsDepthLimit limits.maxDepth) : e.Reports limits := by
  obtain ⟨attempted, place, rfl⟩ := h
  exact Or.inl ⟨rfl, rfl⟩

end Error

namespace Guard

variable {g g' : Guard} {place : Option StableId}

theorem failsFor_enter (g : Guard) (place : Option StableId) :
    (g.enter place).FailsFor (Error.Reports g.limits) := by
  rw [enter]
  split
  · exact Or.inl ⟨rfl, rfl⟩
  · trivial

theorem failsFor_checkBudget (g : Guard) (place : Option StableId) :
    (g.checkBudget place).FailsFor (Error.Reports g.limits) := by
  rw [checkBudget]
  split
  · exact Or.inr ⟨rfl, rfl⟩
  · trivial

theorem enter_eq_ok (h : g.enter place = .ok g') :
    0 < g.limits.maxDepth ∧ g'.limits = g.limits ∧ g'.modifications = g.modifications := by
  obtain ⟨hroom, rfl⟩ := enter_eq_ok_iff.1 h
  exact ⟨Nat.zero_lt_of_lt hroom, rfl, rfl⟩

end Guard

namespace Overlay

variable {o : Overlay} {g : SharedGuard} {e : Edit} {way : Path} {err : Error}

theorem failsFor_checkBlock (o : Overlay) (target : StableId) (way : Path) :
    (o.checkBlock target way).FailsFor Error.IsLocal := by
  rw [checkBlock]
  repeat' split
  all_goals trivial

theorem failsFor_plan (o : Overlay) (target : StableId) (e : Edit) :
    (o.plan target e).FailsFor (Error.Reports o.guard.limits) :=
  ((o.shadow.failsFor_plan o.forward _ o.root e).mono fun _ h =>
      h.elim Error.IsLocal.reports Error.IsDepthLimit.reports).bind fun _ =>
    ((o.failsFor_checkBlock target _).mono fun _ => Error.IsLocal.reports).bind fun _ => trivial

/-- What keeps an edit from being presented to the shared guard names no limit but the overlay's
own. -/
theorem failsFor_presented (o : Overlay) (e : Edit) :
    (o.presented e).FailsFor (Error.Reports o.guard.limits) := by
  refine ((o.shadow.failsFor_node _).mono fun _ => Error.IsLocal.reports).bind fun node => ?_
  cases henter : o.guard.enter (some node.stableId) with
  | error err =>
    have hreports := o.guard.failsFor_enter (some node.stableId)
    rw [henter] at hreports
    exact hreports
  | ok guard =>
    have hbudget := guard.failsFor_checkBudget (some node.stableId)
    have hplan := ({ o with guard } : Overlay).failsFor_plan node.stableId
      (e.mapIds o.forward.resolve)
    dsimp only at hplan
    rw [(Guard.enter_eq_ok henter).2.1] at hbudget hplan
    exact hbudget.bind fun _ => hplan.bind fun _ => trivial

/-- An edit that is presented to the shared guard is within the overlay's own limits. -/
theorem within_of_presented (h : o.presented e = .ok way) :
    way.length ≤ o.guard.limits.maxDepth ∧
      o.guard.modifications < o.guard.limits.maxModifications := by
  obtain ⟨node, -, hrest⟩ := Verdict.bind_eq_ok_iff.1 h
  obtain ⟨guard, henter, hrest⟩ := Verdict.bind_eq_ok_iff.1 hrest
  obtain ⟨u, hbudget, hrest⟩ := Verdict.bind_eq_ok_iff.1 hrest
  obtain ⟨⟨found, value⟩, hplan, hout⟩ := Verdict.bind_eq_ok_iff.1 hrest
  cases hout
  obtain ⟨⟨way', value'⟩, hplanned, hrest⟩ := Verdict.bind_eq_ok_iff.1 hplan
  obtain ⟨u', -, hout⟩ := Verdict.bind_eq_ok_iff.1 hrest
  cases hout
  obtain ⟨hdepth, hlimits, hcount⟩ := Guard.enter_eq_ok henter
  have hleft := Guard.checkBudget_eq_ok_iff.1 hbudget
  have hlength := (Store.path_eq_ok_iff.1 (Store.plan_eq_ok_iff.1 hplanned).1).2.2.2.1
  dsimp only at hlength
  rw [hlimits] at hlength hleft
  rw [hcount] at hleft
  refine ⟨?_, hleft⟩
  show way.above.length + 1 ≤ o.guard.limits.maxDepth
  omega

/-- An edit is presented to the shared guard if the part of its recording before that succeeds. -/
theorem presented_eq_prepare (o : Overlay) (e : Edit) :
    o.presented e = ((o.prepare e).mapError (·.2)).map (·.way) := by
  generalize hprepare : o.prepare e = prepared
  unfold prepare at hprepare
  unfold presented
  split at hprepare
  · rename_i hnode
    subst hprepare
    simp only [hnode]
    rfl
  · rename_i node hnode
    split at hprepare
    · rename_i hentered
      subst hprepare
      simp only [hnode, hentered, bind, Except.bind]
      rfl
    · rename_i guard hentered
      split at hprepare
      · rename_i hbudget
        subst hprepare
        simp only [hnode, hentered, hbudget, bind, Except.bind]
        rfl
      · rename_i hbudget
        split at hprepare
        · rename_i hplanned
          subst hprepare
          simp only [hnode, hentered, hbudget, hplanned, bind, Except.bind]
          rfl
        · rename_i hplanned
          subst hprepare
          simp only [hnode, hentered, hbudget, hplanned, bind, Except.bind]
          rfl

theorem presented_of_prepare_error {next : Overlay} (h : o.prepare e = .error (next, err)) :
    o.presented e = .error err := by
  rw [presented_eq_prepare, h]
  rfl

theorem presented_of_prepare_ok {p : o.Pending} (h : o.prepare e = .ok p) :
    o.presented e = .ok p.way := by
  rw [presented_eq_prepare, h]
  rfl

theorem Pending.refused_eq_withDeepest (p : o.Pending) :
    p.refused = o.withDeepest p.guard.deepest := by
  rw [refused, inside, leave, Guard.leave_of_enter p.entered]
  rfl

theorem failsFor_create (o : Overlay) (n : Node) : (o.create n).2.FailsFor Error.IsLocal := by
  have halloc := o.shadow.failsFor_alloc (n.mapChildren o.forward.resolve)
  unfold create
  generalize o.shadow.alloc (n.mapChildren o.forward.resolve) = out at halloc ⊢
  obtain ⟨shadow, err | id⟩ := out
  · exact halloc
  · trivial

/-- A request for a node, or one that names a sibling that is none, is held against no limit. -/
theorem failsFor_perform_of_edit?_eq_none {request : OverlayCall} (h : request.edit? o = none)
    (g : SharedGuard) : (o.perform g request).2.2.FailsFor Error.IsLocal := by
  cases request with
  | insertAt parent index new => cases h
  | shared call =>
    cases call with
    | create n => exact (o.failsFor_create n).map some
    | insert side parent new sibling =>
      have hsibling := o.shadow.failsFor_siblingIndex (o.forward.resolve parent)
        (o.forward.resolve sibling) side.offset
      simp only [OverlayCall.edit?] at h
      simp only [perform, unitAnswer, insert]
      cases hindex : o.shadow.siblingIndex (o.forward.resolve parent) (o.forward.resolve sibling)
          side.offset with
      | error err =>
        rw [hindex] at hsibling
        exact hsibling
      | ok index =>
        rw [hindex] at h
        cases h
    | replace parent old new => cases h
    | remove parent child => cases h
    | setWhitespace node whitespace => cases h
    | setComments node leading trailing => cases h

theorem failsFor_carryOut (o : Overlay) (target : StableId) (e : Edit) (way : Path) (value : Node) :
    (o.carryOut target e way value).2.FailsFor Error.IsLocal := by
  have hrebuild := o.shadow.failsFor_rebuild way value
  unfold carryOut
  split <;> rename_i hout
  · rwa [hout] at hrebuild
  · trivial

/-- An edit that the shared guard grants is not refused for a limit any more. -/
theorem Pending.failsFor_complete (p : o.Pending) (hdepth : p.way.length ≤ g.limits.maxDepth)
    (hcount : g.modifications < g.limits.maxModifications) :
    (p.complete g).2.2.FailsFor Error.IsLocal := by
  obtain ⟨g', hsettle⟩ := settle_of_granted (o := p.inside) hdepth hcount p.target p.edit p.value
  rw [complete, hsettle]
  exact p.inside.failsFor_carryOut p.target p.edit p.way p.value

/-- The shared guard does not refuse a request: it allows the length of the path that is presented
to it, and has an edit left. -/
def Spared (o : Overlay) (g : SharedGuard) (request : OverlayCall) : Prop :=
  ∀ e way, request.edit? o = some e → o.presented e = .ok way →
    way.length ≤ g.limits.maxDepth ∧ g.modifications < g.limits.maxModifications

/-- A request that the shared guard does not refuse is refused for no limit but the overlay's
own. -/
theorem Spared.failsFor_perform {request : OverlayCall} (h : o.Spared g request) :
    (o.perform g request).2.2.FailsFor (Error.Reports o.guard.limits) := by
  cases hedit : request.edit? o with
  | none => exact (failsFor_perform_of_edit?_eq_none hedit g).mono fun _ => Error.IsLocal.reports
  | some e =>
    rw [perform_of_edit? hedit]
    refine FailsFor.map ?_ _
    cases hprepare : o.prepare e with
    | error refusal =>
      obtain ⟨next, err⟩ := refusal
      have hpresented := o.failsFor_presented e
      rw [presented_of_prepare_error hprepare] at hpresented
      rw [record_of_prepare_error hprepare]
      exact hpresented
    | ok p =>
      obtain ⟨hdepth, hcount⟩ := h e p.way hedit (presented_of_prepare_ok hprepare)
      rw [record_of_prepare_ok hprepare]
      exact (p.failsFor_complete hdepth hcount).mono fun _ => Error.IsLocal.reports

/-! ### The count of an overlay -/

/-- Nothing has been done to the tree but to make nodes beside it. -/
structure Untouched (t : Tree) (o : Overlay) : Prop where
  root : o.root = t.root
  shadow : ∃ nodes, o.shadow = t.store.layer.append nodes

/-- An overlay of a tree under the given limits, whose guard counts its records. -/
structure Metered (t : Tree) (limits : Limits) (o : Overlay) : Prop where
  limits : o.guard.limits = limits
  count : o.guard.modifications = o.recordCount
  untouched : o.recordCount = 0 → o.Untouched t

namespace Metered

variable {t : Tree} {limits : Limits}

theorem withDeepest (h : o.Metered t limits) (d : Nat) : (o.withDeepest d).Metered t limits :=
  ⟨h.limits, h.count, fun hnone => ⟨(h.untouched hnone).root, (h.untouched hnone).shadow⟩⟩

theorem create (h : o.Metered t limits) (n : Node) : (o.create n).1.Metered t limits := by
  rcases o.create_cases n with ⟨err, herr⟩ | ⟨hok, -, -⟩
  · rw [herr]
    exact h
  · rw [hok]
    refine ⟨h.limits, h.count, fun hnone => ?_⟩
    obtain ⟨hroot, nodes, hshadow⟩ := h.untouched hnone
    refine ⟨hroot, nodes ++ [n.mapChildren o.forward.resolve], ?_⟩
    rw [hshadow, Store.append_append]

/-- The guard counts an edit exactly if it gets a record. -/
theorem complete (h : o.Metered t limits) (p : o.Pending) (g : SharedGuard) :
    (p.complete g).1.Metered t limits := by
  unfold Pending.complete
  rcases p.inside.settle_cases g p.target p.edit p.way p.value with
    ⟨g', err, hsettle⟩ | ⟨shadow, r, g', -, -, hsettle⟩
  · rw [hsettle]
    have hmetered := h.withDeepest p.guard.deepest
    rwa [← p.refused_eq_withDeepest] at hmetered
  · rw [hsettle]
    obtain ⟨-, hlimits, hcount⟩ := Guard.enter_eq_ok p.entered
    refine ⟨hlimits.trans h.limits, ?_, fun hnone => ?_⟩
    · show p.guard.modifications + 1 = o.recordCount + 1
      rw [hcount, h.count]
    · cases hnone

theorem perform (h : o.Metered t limits) (g : SharedGuard) (request : OverlayCall) :
    (o.perform g request).1.Metered t limits := by
  rcases o.perform_cases request with ⟨n, rfl⟩ | ⟨e, -, hperform⟩ | ⟨err, -, hperform⟩
  · exact h.create n
  · cases hprepare : o.prepare e with
    | error refusal =>
      have hanswer : (o.perform g request).2.2 = .error refusal.2 := by
        rw [hperform, record_of_prepare_error hprepare]
        rfl
      obtain ⟨d, hd⟩ := eq_withDeepest_of_refused hanswer
      rw [hd]
      exact h.withDeepest d
    | ok p =>
      rw [hperform, record_of_prepare_ok hprepare]
      exact h.complete p g
  · rw [hperform]
    exact h

end Metered

/-- All untouched overlays of a tree are trees, or none of them is. -/
theorem Untouched.isTree_iff {t : Tree} (ht : t.Sound) (h : o.Untouched t) :
    o.IsTree ↔ (t.store.preorder t.root).Nodup ∧ t.store.Linked t.root := by
  obtain ⟨hroot, nodes, hshadow⟩ := h
  have hlt : t.root < t.store.layer.size := by
    rw [Store.size_layer]
    exact ht.root
  have hpre : o.shadow.preorder o.root = t.store.preorder t.root := by
    rw [hroot, hshadow, Store.preorder_append_of_lt nodes hlt, Store.preorder_layer]
  have hunder : ∀ p ∈ t.store.preorder t.root, o.shadow.under p = t.store.under p := by
    intro p hp
    rw [hshadow, Store.under_append_of_lt nodes
      (Nat.lt_of_le_of_lt (Store.le_of_mem_preorder hp) hlt), Store.under_layer]
  have hparent : ∀ c, o.shadow.parent? c = t.store.parent? c := by
    intro c
    rw [hshadow, Store.parent?_append, Store.parent?_layer]
  have hlinked : o.shadow.Linked o.root ↔ t.store.Linked t.root := by
    unfold Store.Linked
    rw [hpre]
    refine forall₂_congr fun p hp => ?_
    rw [hunder p hp]
    simp only [hparent]
  constructor
  · intro h
    exact ⟨hpre ▸ h.once, hlinked.1 h.linked⟩
  · rintro ⟨honce, hlinks⟩
    exact ⟨show (o.shadow.preorder o.root).Nodup from hpre ▸ honce, hlinked.2 hlinks⟩

end Overlay

namespace Config

variable {config : Config}

theorem faults_eq_nil (h : config.validate = .ok ()) : config.faults = [] := by
  unfold validate at h
  split at h
  · assumption
  · cases h

/-- A valid configuration gives a batch no less than one of its editors. -/
theorem le_of_validate (h : config.validate = .ok ()) :
    config.limits.maxDepth ≤ config.batch.maxDepth ∧
      config.limits.maxModifications ≤ config.batch.maxModifications := by
  have hnarrow : config.narrowFaults = [] := (List.append_eq_nil_iff.1 (faults_eq_nil h)).2
  have hpairs := List.filter_eq_nil_iff.1 (List.map_eq_nil_iff.1 hnarrow)
  constructor
  · exact Nat.not_lt.1 fun hlt =>
      hpairs (.batchMaxRecursionDepth, .maxRecursionDepth) (by simp) (decide_eq_true hlt)
  · exact Nat.not_lt.1 fun hlt =>
      hpairs (.batchMaxModifications, .maxModifications) (by simp) (decide_eq_true hlt)

end Config

namespace Session

variable {s s' : Session} {t : Tree} {config : Config} {k : Nat} {acts : List Act} {o : Overlay}

/-! ### What stays the same in a session -/

/-- A session on a tree under a configuration. -/
structure Metered (t : Tree) (config : Config) (s : Session) : Prop where
  tree : s.view.tree = t
  limits : s.view.overlayLimits = config.limits
  shared : s.view.shared.limits = config.batch
  overlays : ∀ o ∈ s.overlays, o.Metered t config.limits

namespace Metered

theorem start (id : Nat) (t : Tree) (config : Config) : (start id t config).Metered t config :=
  ⟨rfl, rfl, rfl, fun o ho => by cases ho⟩

theorem newOverlay (h : s.Metered t config) (block : Option NodeId) :
    (s.view.newOverlay block).Metered t config.limits := by
  refine ⟨h.limits, rfl, fun _ => ⟨congrArg Tree.root h.tree, [], ?_⟩⟩
  rw [← h.tree, Store.append_nil]
  rfl

theorem step (h : s.Metered t config) (hstep : Step s s') : s'.Metered t config := by
  cases hstep with
  | stays => exact h
  | issued block accepted =>
    refine ⟨h.tree, h.limits, h.shared, fun o ho => ?_⟩
    rcases List.mem_append.1 ho with ho | ho
    · exact h.overlays o ho
    · rw [List.mem_singleton.1 ho]
      exact h.newOverlay block
  | @called k o get request =>
    refine ⟨h.tree, h.limits, (o.limits_perform _ request).trans h.shared, fun p hp => ?_⟩
    rcases List.mem_or_eq_of_mem_set hp with hp | rfl
    · exact h.overlays p hp
    · exact (h.overlays o (List.mem_of_getElem? get)).perform _ request

theorem run (h : s.Metered t config) (acts : List Act) : (s.run acts).Metered t config := by
  induction acts generalizing s with
  | nil => exact h
  | cons a acts ih => exact ih (h.step (s.step_act a))

end Metered

/-! ### The count of the view -/

/-- The number of acts of a run that are refused for want of slots. -/
def outOfRoom (s : Session) : List Act → Nat
  | [] => 0
  | a :: acts => (isOutOfRoom (s.act a).2).toNat + (s.act a).1.outOfRoom acts

theorem Trees.tail {a : Act} (h : s.Trees (a :: acts)) : (s.act a).1.Trees acts :=
  fun part hpart => h (a :: part) (List.cons_prefix_cons.2 ⟨rfl, hpart⟩)

/-- Along trees, the view is ahead of the logs by no more than what was refused for want of
slots. -/
theorem count_le (h : s.Sound) (trees : s.Trees acts) :
    (s.run acts).count + recordTotal s.overlays ≤
      s.count + recordTotal (s.run acts).overlays + s.outOfRoom acts := by
  induction acts generalizing s with
  | nil => exact Nat.le_refl _
  | cons a acts ih =>
    have hrest := ih (h.step (s.step_act a)) trees.tail
    show ((s.act a).1.run acts).count + recordTotal s.overlays ≤
      s.count + recordTotal ((s.act a).1.run acts).overlays +
        ((isOutOfRoom (s.act a).2).toNat + (s.act a).1.outOfRoom acts)
    rcases count_act h a with heq | ⟨heq, p, hp, hfull⟩
    · omega
    · -- the request was counted and refused, which trees only do for want of slots
      obtain ⟨m, n, hanswer⟩ := hfull (trees [] List.nil_prefix p hp)
      have hlost : (isOutOfRoom (s.act a).2).toNat = 1 := by rw [hanswer]; rfl
      omega

theorem recordTotal_eq_zero {os : List Overlay} (h : ∀ o ∈ os, o.recordCount = 0) :
    recordTotal os = 0 := by
  induction os with
  | nil => rfl
  | cons o os ih =>
    rw [recordTotal, h o List.mem_cons_self, ih fun p hp => h p (List.mem_cons_of_mem _ hp)]

/-- If only one overlay has records, they are all there are. -/
theorem recordTotal_eq {os : List Overlay} (hget : os[k]? = some o)
    (alone : ∀ j p, j ≠ k → os[j]? = some p → p.recordCount = 0) :
    recordTotal os = o.recordCount := by
  induction os generalizing k with
  | nil => simp at hget
  | cons first os ih =>
    cases k with
    | zero =>
      obtain rfl : first = o := by simpa using hget
      have hnone : recordTotal os = 0 := by
        refine recordTotal_eq_zero fun p hp => ?_
        obtain ⟨j, hj⟩ := List.getElem?_of_mem hp
        exact alone (j + 1) p (Nat.succ_ne_zero j) (by simpa using hj)
      rw [recordTotal, hnone, Nat.add_zero]
    | succ k =>
      have hfirst := alone 0 first (Nat.succ_ne_zero k).symm rfl
      have hrest := ih (by simpa using hget) fun j p hne hp =>
        alone (j + 1) p (fun heq => hne (Nat.succ.inj heq)) (by simpa using hp)
      rw [recordTotal, hfirst, hrest, Nat.zero_add]

/-! ### One overlay that records -/

/-- No overlay but the one of the given number ever records anything. -/
def Alone (s : Session) (k : Nat) (acts : List Act) : Prop :=
  ∀ part, part <+: acts → ∀ j o, j ≠ k → (s.run part).overlays[j]? = some o → o.recordCount = 0

/-- The shadow of the overlay of the given number is a tree, all along a run. -/
def TreesOf (s : Session) (k : Nat) (acts : List Act) : Prop :=
  ∀ part, part <+: acts → ∀ o, (s.run part).overlays[k]? = some o → o.IsTree

/-- An overlay that has not been there before an act has no records. -/
theorem recordCount_of_new (hstep : Step s s') (hbefore : s.overlays[k]? = none)
    (hafter : s'.overlays[k]? = some o) : o.recordCount = 0 := by
  cases hstep with
  | stays =>
    rw [hbefore] at hafter
    cases hafter
  | issued block accepted =>
    rw [List.getElem?_append_right (List.getElem?_eq_none_iff.1 hbefore)] at hafter
    rw [List.mem_singleton.1 (List.mem_of_getElem? hafter)]
    rfl
  | called get request =>
    have hlt := (List.getElem?_eq_some_iff.1 hafter).1
    rw [List.length_set] at hlt
    exact absurd hlt (Nat.not_lt.2 (List.getElem?_eq_none_iff.1 hbefore))

/-- An overlay of a run has been there without records. -/
theorem exists_recordCount_eq_zero (hnone : s.overlays = [])
    (hget : (s.run acts).overlays[k]? = some o) :
    ∃ part p, part <+: acts ∧ (s.run part).overlays[k]? = some p ∧ p.recordCount = 0 := by
  induction acts using List.reverseRecOn generalizing o with
  | nil =>
    rw [show (s.run []).overlays = [] from hnone] at hget
    cases hget
  | append_singleton acts a ih =>
    cases hbefore : (s.run acts).overlays[k]? with
    | some p =>
      obtain ⟨part, first, hpart, hfirst⟩ := ih hbefore
      exact ⟨part, first, hpart.trans (List.prefix_append _ _), hfirst⟩
    | none =>
      refine ⟨acts ++ [a], o, List.prefix_refl _, hget, ?_⟩
      rw [run_append_singleton] at hget
      exact recordCount_of_new (step_act _ a) hbefore hget

/-- If one overlay keeps its shadow a tree and the others do not record, then all shadows are
trees. -/
theorem trees_of_alone (ht : t.Sound) (hs : s.Metered t config) (hnone : s.overlays = [])
    (alone : s.Alone k acts) (trees : s.TreesOf k acts)
    (hget : (s.run acts).overlays[k]? = some o) : s.Trees acts := by
  obtain ⟨early, first, hearly, hfirst, hzero⟩ := exists_recordCount_eq_zero hnone hget
  have hview : (t.store.preorder t.root).Nodup ∧ t.store.Linked t.root := by
    have hmetered := (hs.run early).overlays first (List.mem_of_getElem? hfirst)
    exact ((hmetered.untouched hzero).isTree_iff ht).1 (trees early hearly first hfirst)
  intro part hpart p hp
  obtain ⟨j, hj⟩ := List.getElem?_of_mem hp
  by_cases hjk : j = k
  · exact trees part hpart p (hjk ▸ hj)
  · have huntouched := ((hs.run part).overlays p hp).untouched (alone part hpart j p hjk hj)
    exact (huntouched.isTree_iff ht).2 hview

/-- If one overlay of a view keeps its shadow a tree and no other one records anything, then under a
valid configuration the shared guard refuses none of its requests, and a request that is refused for
a limit names a limit of the overlay itself. The condition is that no request before was refused for
want of slots, or no more of them than the edits that the configuration gives to the batch beyond
those of an overlay: such a request is counted by the view and recorded nowhere. -/
theorem lone_overlay_spared (ht : Lineage t) (id : Nat) (valid : config.validate = .ok ())
    (k : Nat) (acts : List Act) (alone : (start id t config).Alone k acts)
    (trees : (start id t config).TreesOf k acts) (part : List Act) (request : OverlayCall)
    (o : Overlay) (hpart : part ++ [.call k request] <+: acts)
    (hget : ((start id t config).run part).overlays[k]? = some o)
    (room : (start id t config).outOfRoom part ≤
      config.batch.maxModifications - config.limits.maxModifications) :
    o.Spared ((start id t config).run part).view.shared request ∧
      (((start id t config).run part).act (.call k request)).2.FailsFor
        (Error.Reports config.limits) := by
  have hle : part <+: acts := (List.prefix_append _ _).trans hpart
  have hstart : (start id t config).Metered t config := .start id t config
  have hs := hstart.run part
  have ho := hs.overlays o (List.mem_of_getElem? hget)
  obtain ⟨hdepths, hcounts⟩ := Config.le_of_validate valid
  have hall : (start id t config).Trees part :=
    trees_of_alone ht.sound hstart rfl (fun early hearly => alone early (hearly.trans hle))
      (fun early hearly => trees early (hearly.trans hle)) hget
  have hcount : ((start id t config).run part).count ≤
      o.recordCount + (start id t config).outOfRoom part := by
    have hlogs := count_le (.start ht.sound id config) hall
    rw [recordTotal_eq hget (alone part hle)] at hlogs
    have hzero : (start id t config).count = 0 := rfl
    omega
  have hspared : o.Spared ((start id t config).run part).view.shared request := by
    intro e way hedit hpresented
    obtain ⟨hdepth, hleft⟩ := Overlay.within_of_presented hpresented
    rw [ho.limits] at hdepth hleft
    rw [ho.count] at hleft
    rw [hs.shared]
    refine ⟨Nat.le_trans hdepth hdepths, ?_⟩
    show ((start id t config).run part).count < config.batch.maxModifications
    omega
  refine ⟨hspared, ?_⟩
  rw [act_call hget, ← ho.limits]
  exact hspared.failsFor_perform

/-- A batch may do no more than one overlay, which may record one edit. -/
def tightConfig : Config :=
  { limits := ⟨3, 1⟩, batch := ⟨3, 1⟩ }

/-- Two overlays, of which the first one records an edit. It is refused before that for the length
of a path, and the second one for a child that is none. -/
def loneActs : List Act :=
  [.issue, .issue, .call 0 (.shared (.setWhitespace 0 ⟨" ", ""⟩)), .call 1 (.shared (.remove 2 3)),
    .call 0 (.shared (.setWhitespace 3 ⟨" ", ""⟩)), .call 0 (.shared (.remove 4 3))]

/-- The second edit is refused by the overlay, although the batch has none left either. -/
theorem lone_overlay_spared_tight :
    tightConfig.validate = .ok () ∧
      (start 0 Context.strayTree tightConfig).Alone 0 loneActs ∧
      (start 0 Context.strayTree tightConfig).TreesOf 0 loneActs ∧
      (((start 0 Context.strayTree tightConfig).run (loneActs.take 5)).act
          (.call 0 (.shared (.remove 4 3)))).2 =
        .error (.limit .modifications 2 1 (some (Context.blockAt 1 []).stableId)) ∧
      ∀ o, ((start 0 Context.strayTree tightConfig).run (loneActs.take 5)).overlays[0]? = some o →
        o.Spared ((start 0 Context.strayTree tightConfig).run (loneActs.take 5)).view.shared
          (.shared (.remove 4 3)) := by
  have hvalid : tightConfig.validate = .ok () := by decide +kernel
  have halone : (start 0 Context.strayTree tightConfig).Alone 0 loneActs := by
    have hall : ∀ part ∈ loneActs.inits,
        ∀ o ∈ ((start 0 Context.strayTree tightConfig).run part).overlays.tail,
          o.recordCount = 0 := by decide +kernel
    intro part hpart j o hj hget
    obtain ⟨j, rfl⟩ := Nat.exists_eq_succ_of_ne_zero hj
    refine hall part ((List.mem_inits _ _).2 hpart) o (List.mem_of_getElem? (i := j) ?_)
    rwa [List.getElem?_tail]
  have htrees : (start 0 Context.strayTree tightConfig).TreesOf 0 loneActs := by
    have hall : ∀ part ∈ loneActs.inits,
        ∀ o ∈ ((start 0 Context.strayTree tightConfig).run part).overlays, o.IsTree := by
      decide +kernel
    exact fun part hpart o hget =>
      hall part ((List.mem_inits _ _).2 hpart) o (List.mem_of_getElem? hget)
  refine ⟨hvalid, halone, htrees, by decide +kernel, fun o hget => ?_⟩
  have hspared := lone_overlay_spared (.built Context.finish_strayNodes) 0 hvalid 0 loneActs halone
    htrees (loneActs.take 5) (.shared (.remove 4 3)) o (List.prefix_refl _) hget (by decide +kernel)
  exact hspared.1

end Session

end TreeEdit
