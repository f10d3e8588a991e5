import TreeEdit.Proofs.Finishing
import TreeEdit.Proofs.LoneOverlay

/-!
# Views without a free slot

An edit on a shadow with no slot left is counted by the view and then refused, and nothing is
recorded. So requests that are refused like this use up what a batch may do, until the shared guard
refuses an overlay that has recorded nothing. `Session.exists_unspared` says that this can happen
under every configuration, to an overlay that is alone on a tree.
-/

namespace TreeEdit

namespace Store

/-- A builder takes as many leaves as there are slots. -/
theorem build_replicate (leaf : Node) (valid : leaf.validate = .ok ())
    (childless : leaf.children = []) {n : Nat} (hn : n ≤ capacity) :
    build (List.replicate n leaf) = empty.append (List.replicate n leaf) := by
  induction n with
  | zero => rfl
  | succ n ih =>
    have hbuilt := ih (Nat.le_of_succ_le hn)
    have hsize : (build (List.replicate n leaf)).size = n := by
      rw [hbuilt, size_append, List.length_replicate]
      exact Nat.zero_add n
    have hcheck : (build (List.replicate n leaf)).check leaf = .ok () := by
      rw [check_eq_ok_iff, childless]
      exact ⟨valid, by simp⟩
    have hroom : (build (List.replicate n leaf)).checkRoom 1 = .ok () := by
      rw [checkRoom, hsize, if_pos (by omega)]
    rw [List.replicate_succ', build_append_singleton, alloc, hcheck]
    dsimp only
    rw [push, hroom]
    dsimp only
    rw [hbuilt, append_append]

end Store

/-- The limits of an editor in a valid configuration allow something. -/
theorem Config.pos_of_validate {config : Config} (h : config.validate = .ok ()) :
    0 < config.limits.maxDepth ∧ 0 < config.limits.maxModifications := by
  have hzero : config.zeroFaults = [] := (List.append_eq_nil_iff.1 (faults_eq_nil h)).1
  have hsettings := List.filter_eq_nil_iff.1 (List.map_eq_nil_iff.1 hzero)
  constructor
  · exact Nat.pos_of_ne_zero fun heq => hsettings .maxRecursionDepth (by simp) (beq_iff_eq.2 heq)
  · exact Nat.pos_of_ne_zero fun heq => hsettings .maxModifications (by simp) (beq_iff_eq.2 heq)

namespace Tree

/-- A leaf. -/
def leaf : Node := Context.leafAt 1

/-- The tree is a single leaf, and all other slots are in use as well. -/
structure Full (t : Tree) : Prop where
  lineage : Lineage t
  isTree : t.IsTree
  root : t.root = 0
  size : t.store.size = Store.capacity
  get : t.store.get? 0 = some leaf

theorem exists_full : ∃ t : Tree, t.Full := by
  have hbuilt := Store.build_replicate leaf rfl rfl (Nat.le_refl Store.capacity)
  generalize hnodes : List.replicate Store.capacity leaf = nodes at hbuilt
  have hsize : (Store.build nodes).size = Store.capacity := by
    rw [hbuilt, Store.size_append, ← hnodes, List.length_replicate]
    exact Nat.zero_add _
  have hget : (Store.build nodes).get? 0 = some leaf := by
    have hfirst := Store.get?_append_size_add .empty nodes 0
    rw [hbuilt]
    refine hfirst.trans ?_
    rw [← hnodes, List.getElem?_replicate, if_pos (by decide)]
  have hs := Store.sound_build nodes
  have hpre : (Store.build nodes).preorder 0 = [0] := by
    rw [Store.preorder_eq, hs.under_eq hget]
    rfl
  have hfinish : ∃ t, (Store.build nodes).finish 0 = .ok t := by
    rw [Store.exists_finish_iff hs, hsize, hpre]
    decide
  obtain ⟨t, ht⟩ := hfinish
  obtain ⟨hroot, -, -, links, hstore, -⟩ := Store.finish_eq_ok ht
  refine ⟨t, .built ht, isTree_of_finish ht, hroot, ?_, ?_⟩
  · rw [hstore, Store.size_withLinks, hsize]
  · rw [hstore, Store.get?_withLinks, hget]

end Tree

namespace Overlay

variable {o : Overlay} {g : SharedGuard} {request : OverlayCall} {e : Edit} {way : Path}

/-- An edit is presented to the shared guard once it is planned. -/
theorem exists_pending_of_presented (h : o.presented e = .ok way) :
    ∃ p : o.Pending, o.prepare e = .ok p ∧ p.way = way := by
  cases hprepare : o.prepare e with
  | error refusal =>
    obtain ⟨next, err⟩ := refusal
    rw [presented_of_prepare_error hprepare] at h
    cases h
  | ok p =>
    rw [presented_of_prepare_ok hprepare] at h
    exact ⟨p, rfl, Except.ok.inj h⟩

/-- On a tree with no slot left, an edit that the shared guard grants is counted and refused. -/
theorem perform_of_full (hs : o.shadow.Sound) (tree : o.IsTree)
    (full : Store.capacity ≤ o.shadow.size) (hedit : request.edit? o = some e)
    (hpresented : o.presented e = .ok way) (hdepth : way.length ≤ g.limits.maxDepth)
    (hcount : g.modifications < g.limits.maxModifications) :
    ∃ d m err, o.perform g request =
      (o.withDeepest d, { g with modifications := g.modifications + 1, deepest := m },
        .error err) := by
  obtain ⟨p, hprepare, rfl⟩ := exists_pending_of_presented hpresented
  obtain ⟨⟨way', value'⟩, hplanned, hrest⟩ := Verdict.bind_eq_ok_iff.1 p.planned
  obtain ⟨u, -, hout⟩ := Verdict.bind_eq_ok_iff.1 hrest
  cases hout
  -- a tree can be rebuilt if there is room, and a path has one node at least
  have hfull : ∃ err, o.shadow.rebuild p.way p.value = (o.shadow, .error err) := by
    rcases Store.rebuild_of_plan hs (Store.uniqueListers_of_nodup tree.once) tree.linked
        hplanned with ⟨shadow, r, hok⟩ | ⟨requested, available, herr⟩
    · have hroom := Store.checkRoom_eq_ok_iff.1 (Store.rebuild_eq_ok_iff.1 hok).2.1
      have hlength : 1 ≤ p.way.length := Nat.le_add_left _ _
      omega
    · exact ⟨_, herr⟩
  obtain ⟨err, herr⟩ := hfull
  have hcarry : p.inside.carryOut p.target p.edit p.way p.value = (p.inside, .error err) := by
    rw [carryOut, show p.inside.shadow = o.shadow from rfl, herr]
    rfl
  refine ⟨p.guard.deepest, max g.deepest p.way.length, err, ?_⟩
  rw [perform_of_edit? hedit, record_of_prepare_ok hprepare, Pending.complete, settle,
    SharedGuard.admitDepth, if_neg (Nat.not_lt.2 hdepth), ← p.refused_eq_withDeepest]
  dsimp only
  rw [SharedGuard.reserve, if_pos hcount]
  dsimp only
  rw [hcarry]
  rfl

/-- An edit that is presented to a shared guard with none left is refused by it. -/
theorem perform_of_taken (hedit : request.edit? o = some e) (hpresented : o.presented e = .ok way)
    (hdepth : way.length ≤ g.limits.maxDepth)
    (hcount : g.limits.maxModifications ≤ g.modifications) :
    ∃ d m place, o.perform g request =
      (o.withDeepest d, g.withDeepest m,
        .error (.limit .modifications (g.modifications + 1) g.limits.maxModifications place)) := by
  obtain ⟨p, hprepare, rfl⟩ := exists_pending_of_presented hpresented
  refine ⟨p.guard.deepest, max g.deepest p.way.length, some p.target, ?_⟩
  rw [perform_of_edit? hedit, record_of_prepare_ok hprepare, Pending.complete, settle,
    SharedGuard.admitDepth, if_neg (Nat.not_lt.2 hdepth), ← p.refused_eq_withDeepest]
  dsimp only
  rw [SharedGuard.reserve, if_neg (Nat.not_lt.2 hcount)]
  rfl

end Overlay

namespace Session

open Overlay (Untouched)

/-- A request to change nothing but the blanks before the root. -/
def indent : OverlayCall := .shared (.setWhitespace 0 ⟨" ", ""⟩)

variable {s : Session} {t : Tree} {config : Config} {id m : Nat}

/-- An overlay that has recorded nothing presents the edit to the shared guard. -/
theorem presented_indent (valid : config.validate = .ok ()) (full : t.Full) (d : Nat) :
    (((View.ofTree id t config).newOverlay none).withDeepest d).presented
      (.setWhitespace 0 ⟨" ", ""⟩) = .ok ⟨0, []⟩ := by
  obtain ⟨hdepth, hcount⟩ := Config.pos_of_validate valid
  have hget : t.store.layer.get? 0 = some Tree.leaf := (Store.get?_layer _ _).trans full.get
  have hfree : t.store.layer.parent? 0 = none := by
    rw [Store.parent?_layer, ← full.root]
    exact full.isTree.root_free
  obtain ⟨guard, henter, hlimits, hnone⟩ : ∃ guard,
      (((View.ofTree id t config).newOverlay none).withDeepest d).guard.enter
        (some Tree.leaf.stableId) = .ok guard ∧
      guard.limits = config.limits ∧ guard.modifications = 0 :=
    ⟨_, Guard.enter_eq_ok_iff.2 ⟨hdepth, rfl⟩, rfl, rfl⟩
  have hbudget : guard.checkBudget (some Tree.leaf.stableId) = .ok () := by
    rw [Guard.checkBudget_eq_ok_iff, hlimits, hnone]
    exact hcount
  have hplan : ({ (View.ofTree id t config).newOverlay none with guard } : Overlay).plan
      Tree.leaf.stableId (.setWhitespace 0 ⟨" ", ""⟩) =
        .ok (⟨0, []⟩, Tree.leaf.withWhitespace ⟨" ", ""⟩) := by
    rw [Overlay.plan_unrestricted rfl]
    have hpath : t.store.layer.path guard.limits.maxDepth t.root 0 = .ok ⟨0, []⟩ :=
      Store.path_eq_ok_iff.2 ⟨rfl, ⟨_, hget⟩, hfree, Nat.zero_le _, full.root.symm⟩
    refine Store.plan_eq_ok_iff.2 ⟨hpath, Tree.leaf, hget, trivial, fun x hx => ?_, rfl, rfl⟩
    cases hx
  exact Overlay.presented_of_plan (Store.node_eq_ok_iff.2 hget) henter hbudget hplan

/-- The only overlay has recorded nothing, and the view has counted the given number of edits. -/
structure Drained (id : Nat) (t : Tree) (config : Config) (m : Nat) (s : Session) : Prop where
  overlay : ∃ d, s.overlays = [((View.ofTree id t config).newOverlay none).withDeepest d]
  limits : s.view.shared.limits = config.batch
  count : s.view.shared.modifications = m
  le : m ≤ config.batch.maxModifications

theorem isTree_newOverlay (full : t.Full) (d : Nat) :
    (((View.ofTree id t config).newOverlay none).withDeepest d).IsTree := by
  have huntouched : Untouched t (((View.ofTree id t config).newOverlay none).withDeepest d) :=
    ⟨rfl, [], (Store.append_nil _).symm⟩
  exact (huntouched.isTree_iff full.lineage.sound).2 ⟨full.isTree.once, full.isTree.linked⟩

/-- The request is refused. It is counted as long as the batch has an edit left, and refused by the
shared guard after that. -/
theorem Drained.act (h : s.Drained id t config m) (valid : config.validate = .ok ())
    (full : t.Full) :
    (s.act (.call 0 indent)).1.Drained id t config (min (m + 1) config.batch.maxModifications) ∧
      (m = config.batch.maxModifications → ∃ place, (s.act (.call 0 indent)).2 =
        .error (.limit .modifications (m + 1) config.batch.maxModifications place)) := by
  obtain ⟨d, hoverlays⟩ := h.overlay
  have hget : s.overlays[0]? =
      some (((View.ofTree id t config).newOverlay none).withDeepest d) := by rw [hoverlays]; rfl
  have hdepth : 1 ≤ s.view.shared.limits.maxDepth := by
    rw [h.limits]
    exact Nat.le_trans (Config.pos_of_validate valid).1 (Config.le_of_validate valid).1
  have hedit : indent.edit? (((View.ofTree id t config).newOverlay none).withDeepest d) =
      some (.setWhitespace 0 ⟨" ", ""⟩) := rfl
  rcases Nat.lt_or_ge m config.batch.maxModifications with hlt | hge
  · have hcount : s.view.shared.modifications < s.view.shared.limits.maxModifications := by
      rwa [h.limits, h.count]
    obtain ⟨d', deepest, err, hperform⟩ := Overlay.perform_of_full full.lineage.sound.store.layer
      (isTree_newOverlay full d) (Nat.le_of_eq (full.size.symm.trans (Store.size_layer _).symm))
      hedit (presented_indent valid full d) hdepth hcount
    rw [act_call hget, hperform, hoverlays, Nat.min_eq_left hlt]
    exact ⟨⟨⟨d', rfl⟩, h.limits, congrArg (· + 1) h.count, hlt⟩,
      fun hm => absurd hm (Nat.ne_of_lt hlt)⟩
  · have hcount : s.view.shared.limits.maxModifications ≤ s.view.shared.modifications := by
      rwa [h.limits, h.count]
    obtain rfl : m = config.batch.maxModifications := Nat.le_antisymm h.le hge
    obtain ⟨d', deepest, place, hperform⟩ := Overlay.perform_of_taken hedit
      (presented_indent valid full d) hdepth hcount
    rw [act_call hget, hperform, hoverlays, Nat.min_eq_right (Nat.le_succ _)]
    refine ⟨⟨⟨d', rfl⟩, h.limits, h.count, Nat.le_refl _⟩, fun _ => ⟨place, ?_⟩⟩
    rw [h.limits, h.count]

theorem drained_run (id : Nat) (valid : config.validate = .ok ()) (full : t.Full) (m : Nat) :
    ((start id t config).run (.issue :: List.replicate m (.call 0 indent))).Drained id t config
      (min m config.batch.maxModifications) := by
  induction m with
  | zero => exact ⟨⟨0, rfl⟩, rfl, (Nat.zero_min _).symm, Nat.min_le_right _ _⟩
  | succ m ih =>
    have hmin : min (min m config.batch.maxModifications + 1) config.batch.maxModifications =
        min (m + 1) config.batch.maxModifications := by omega
    rw [List.replicate_succ', ← List.cons_append, run_append_singleton, ← hmin]
    exact (ih.act valid full).1

/-- Under every valid configuration there is an overlay that is alone on a tree, has recorded
nothing, and is refused by the shared guard. -/
theorem exists_unspared (id : Nat) (valid : config.validate = .ok ()) :
    ∃ (t : Tree) (part : List Act) (o : Overlay) (place : Option StableId), Lineage t ∧
      (start id t config).Alone 0 (part ++ [.call 0 indent]) ∧
      (start id t config).TreesOf 0 (part ++ [.call 0 indent]) ∧
      ((start id t config).run part).overlays[0]? = some o ∧ o.recordCount = 0 ∧
      ¬o.Spared ((start id t config).run part).view.shared indent ∧
      (((start id t config).run part).act (.call 0 indent)).2 =
        .error (.limit .modifications (config.batch.maxModifications + 1)
          config.batch.maxModifications place) := by
  obtain ⟨t, full⟩ := Tree.exists_full
  have hearlier : ∀ n part, part <+: Act.issue :: List.replicate n (.call 0 indent) →
      ∀ j o, ((start id t config).run part).overlays[j]? = some o → j = 0 ∧ o.IsTree := by
    intro n part hpart j o hget
    rcases List.prefix_cons_iff.1 hpart with rfl | ⟨later, rfl, hlater⟩
    · cases hget
    · obtain ⟨-, heq⟩ := List.prefix_replicate_iff.1 hlater
      rw [heq] at hget
      obtain ⟨d, hoverlays⟩ := (drained_run id valid full _).overlay
      rw [hoverlays] at hget
      obtain ⟨hj, ho⟩ := List.getElem?_eq_some_iff.1 hget
      obtain rfl : j = 0 := Nat.lt_one_iff.1 hj
      exact ⟨rfl, ho ▸ isTree_newOverlay full d⟩
  have hlast := drained_run id valid full config.batch.maxModifications
  rw [Nat.min_self] at hlast
  obtain ⟨d, hoverlays⟩ := hlast.overlay
  obtain ⟨place, hanswer⟩ := (hlast.act valid full).2 rfl
  have hacts : Act.issue :: List.replicate config.batch.maxModifications (.call 0 indent) ++
      [.call 0 indent] =
        Act.issue :: List.replicate (config.batch.maxModifications + 1) (.call 0 indent) := by
    rw [List.replicate_succ', List.cons_append]
  refine ⟨t, _, _, place, full.lineage, ?_, ?_, by rw [hoverlays]; rfl, rfl, ?_, hanswer⟩
  · intro part hpart j o hj hget
    exact absurd (hearlier _ part (hacts ▸ hpart) j o hget).1 hj
  · intro part hpart o hget
    exact (hearlier _ part (hacts ▸ hpart) 0 o hget).2
  · intro hspared
    have hleft := (hspared _ _ rfl (presented_indent valid full d)).2
    rw [hlast.limits, hlast.count] at hleft
    exact Nat.lt_irrefl _ hleft

/-- One edit for an overlay, and two for all overlays together. -/
def slackConfig : Config :=
  { limits := ⟨3, 1⟩, batch := ⟨3, 2⟩ }

/-- On a tree with no slot left, an overlay that is alone and has recorded nothing meets the limit
of the batch: two requests were refused for want of slots, and the third is refused by the shared
guard. -/
theorem lone_overlay_refused :
    slackConfig.validate = .ok () ∧
      ∃ (t : Tree) (part : List Act) (o : Overlay) (place : Option StableId), Lineage t ∧
        (start 0 t slackConfig).Alone 0 (part ++ [.call 0 indent]) ∧
        (start 0 t slackConfig).TreesOf 0 (part ++ [.call 0 indent]) ∧
        ((start 0 t slackConfig).run part).overlays[0]? = some o ∧ o.recordCount = 0 ∧
        ¬o.Spared ((start 0 t slackConfig).run part).view.shared indent ∧
        (((start 0 t slackConfig).run part).act (.call 0 indent)).2 =
          .error (.limit .modifications 3 2 place) ∧
        ¬(((start 0 t slackConfig).run part).act (.call 0 indent)).2.FailsFor
          (Error.Reports slackConfig.limits) := by
  have hvalid : slackConfig.validate = .ok () := by decide +kernel
  obtain ⟨t, part, o, place, ht, halone, htrees, hget, hnone, hspared, hanswer⟩ :=
    exists_unspared 0 hvalid
  refine ⟨hvalid, t, part, o, place, ht, halone, htrees, hget, hnone, hspared, hanswer, ?_⟩
  rw [hanswer]
  rintro (⟨hresource, -⟩ | ⟨-, hmost⟩)
  · cases hresource
  · exact absurd hmost (by decide)

end Session

end TreeEdit
