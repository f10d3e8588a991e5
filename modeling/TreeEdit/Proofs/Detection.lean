import TreeEdit.Proofs.Composition
import TreeEdit.Proofs.Failures
import TreeEdit.Proofs.Steady

/-!
# Which batches are in conflict

Two workers of a batch get into each other's way if they change one place, or if one changes
something at or below a node of the view that the other takes out. `View.Clash` says so without the
maps that the search for conflicts keeps. The search remembers one worker for each node that is
taken out, the first in the order of the list. So if two workers take one node out it may miss that
one of them changes something below it. `View.conflicts_ne_nil_iff_clash` says that this does not
happen to nodes of the tree: the search finds something exactly if there is a clash, in any order of
the list, if no node outside the tree of the view is taken out by two workers.

The condition is needed. In `View.conflicts_loose` both workers take out a node that is not part of
the tree of the view, and the search finds a conflict in one order and none in the other.
-/

namespace TreeEdit

/-! ### Chains of links in a tree -/

namespace Store

variable {s : Store} {root d x : NodeId}

/-- In a tree, what stands above a node is found by following links. -/
theorem mem_chain_of_mem_preorder (linked : s.Linked root) (hd : d ∈ s.preorder root)
    (hx : x ∈ s.preorder d) {steps : Nat} (hsteps : s.size ≤ steps + x) :
    d ∈ x :: s.chain steps x := by
  refine preorder_induction (P := fun x => ∀ steps, s.size ≤ steps + x → d ∈ x :: s.chain steps x)
    (fun _ _ => List.mem_cons_self) ?_ x hx steps hsteps
  intro p hp ih c hc steps hsteps
  have hlt := Nat.succ_le_of_lt (lt_of_mem_under hc)
  have hsize := Nat.succ_le_of_lt (lt_size_of_mem_under hc)
  obtain ⟨steps, rfl⟩ : ∃ k, steps = k + 1 := ⟨steps - 1, by omega⟩
  rw [chain, linked p (mem_preorder_trans hp hd) c hc]
  exact List.mem_cons_of_mem _ (ih steps (by omega))

end Store

theorem Tree.mem_ancestors_of_mem_preorder {t : Tree} (linked : t.store.Linked t.root)
    {d x : NodeId} (hd : d ∈ t.store.preorder t.root) (hx : x ∈ t.store.preorder d) :
    d ∈ x :: t.ancestors x :=
  Store.mem_chain_of_mem_preorder linked hd hx (Nat.le_add_right _ _)

/-! ### Logs and overlays -/

namespace Overlay

variable {v : View} {P : Overlay → Prop} {o : Overlay} {c x : NodeId}

theorem baseSize_of_runs (h : v.Runs P o) : o.toSealed.baseSize = v.tree.store.size := by
  refine h.induction (I := fun o => o.shadow.baseSize = v.tree.store.size) ?_ ?_
  · intro worker block _
    rfl
  · intro o o' g _ before ih hstep
    cases hstep with
    | refused guard limits => exact ih
    | created n checked room => exact ih
    | recorded guard limits get_target planned depth rebuilt =>
      obtain ⟨-, -, copies, -, rfl, -⟩ := Store.rebuild_eq_ok_iff.1 rebuilt
      exact ih

theorem mem_removals (h : v.Runs P o) :
    c ∈ o.toSealed.removals ↔ o.TakesOut c ∧ c < v.tree.store.size := by
  rw [Sealed.removals, List.mem_filter, List.mem_filterMap, Sealed.isBase, baseSize_of_runs h,
    decide_eq_true_iff]
  rfl

theorem mem_baseTargets (h : v.Runs P o) :
    x ∈ o.toSealed.baseTargets ↔ o.Targets x ∧ x < v.tree.store.size := by
  rw [Sealed.baseTargets, List.mem_filter, List.mem_map, Sealed.isBase, baseSize_of_runs h,
    decide_eq_true_iff]
  rfl

/-- Of the nodes above one another that a worker takes out, one is the uppermost. -/
theorem exists_uppermost (hc : v.Reaches c) (hout : o.TakesOut c) :
    ∃ d, v.Reaches d ∧ c ∈ v.tree.store.preorder d ∧ o.TakesOut d ∧
      ∀ y, v.Reaches y → d ∈ v.tree.store.preorder y → y ≠ d → ¬o.TakesOut y := by
  -- what stands above a node comes later, up to the root
  induction hk : v.tree.root - c using Nat.strong_induction_on generalizing c with
  | _ k ih =>
    by_cases hmore : ∃ y, v.Reaches y ∧ c ∈ v.tree.store.preorder y ∧ y ≠ c ∧ o.TakesOut y
    · obtain ⟨y, hy, hcy, hne, houty⟩ := hmore
      have hlt := Nat.lt_of_le_of_ne (Store.le_of_mem_preorder hcy) (Ne.symm hne)
      have hroot := Nat.lt_of_lt_of_le hlt (Store.le_of_mem_preorder hy)
      obtain ⟨d, hd, hyd, hrest⟩ :=
        ih (v.tree.root - y) (hk ▸ Nat.sub_lt_sub_left hroot hlt) hy houty rfl
      exact ⟨d, hd, Store.mem_preorder_trans hcy hyd, hrest⟩
    · refine ⟨c, hc, Store.mem_preorder_self _ c, hout, fun y hy hcy hne houty => ?_⟩
      exact hmore ⟨y, hy, hcy, hne, houty⟩

end Overlay

namespace View

variable {v : View} {os ps : List Overlay} {a b : Overlay} {P : Overlay → Prop} {c d x : NodeId}

/-! ### Clashes -/

/-- Two workers change one place, or one changes something at or below a node of the view that the
other takes out. -/
inductive Clash (v : View) (os : List Overlay) : Prop
  | place {a b : Overlay} (ha : a ∈ os) (hb : b ∈ os) (apart : a.worker ≠ b.worker)
      {r q : Record} (hr : r ∈ a.records) (hq : q ∈ b.records) (same : r.target = q.target)
  | removed {a b : Overlay} (ha : a ∈ os) (hb : b ∈ os) (apart : a.worker ≠ b.worker)
      {c x : NodeId} (out : a.TakesOut c) (hc : c < v.tree.store.size) (target : b.Targets x)
      (hx : x < v.tree.store.size) (below : c ∈ x :: v.tree.ancestors x)

theorem Clash.perm (h : v.Clash os) (hperm : os.Perm ps) : v.Clash ps := by
  cases h with
  | place ha hb apart hr hq same =>
    exact .place (hperm.mem_iff.1 ha) (hperm.mem_iff.1 hb) apart hr hq same
  | removed ha hb apart out hc target hx below =>
    exact .removed (hperm.mem_iff.1 ha) (hperm.mem_iff.1 hb) apart out hc target hx below

/-- If two workers take out one node, the tree of the view is a tree and the node is part of it. -/
def RemovesApart (v : View) (os : List Overlay) : Prop :=
  ∀ a ∈ os, ∀ b ∈ os, a.worker ≠ b.worker → ∀ c, c < v.tree.store.size → a.TakesOut c →
    b.TakesOut c → v.tree.IsTree ∧ v.Reaches c

theorem conflicts_map_toSealed (hv : v.tree.Sound) (runs : ∀ o ∈ os, v.Runs P o) :
    v.conflicts (os.map Overlay.toSealed) = [] ↔
      (∀ a ∈ os, ∀ r ∈ a.records, ∀ b ∈ os, ∀ q ∈ b.records, r.target = q.target →
        a.worker = b.worker) ∧
      ∀ b ∈ os, ∀ x, b.Targets x → x < v.tree.store.size → ∀ c ∈ x :: v.tree.ancestors x, ∀ w,
        (Sealed.removers (os.map Overlay.toSealed))[c]? = some w → w = b.worker := by
  have own : ∀ o ∈ os, ∀ r ∈ o.records, r.worker = o.worker := fun o ho =>
    (Overlay.Sound.of_runs hv (runs o ho)).own
  rw [conflicts_eq_nil_iff hv]
  · refine and_congr ?_ ?_
    · have hrecords : (os.map Overlay.toSealed).flatMap (·.records) = os.flatMap Overlay.records :=
        List.flatMap_map _ _ _
      simp only [hrecords, List.mem_flatMap, forall_exists_index, and_imp]
      constructor
      · intro h a ha r hr b hb q hq hsame
        rw [← own a ha r hr, ← own b hb q hq]
        exact h r a ha hr q b hb hq hsame
      · intro h r a ha hr q b hb hq hsame
        rw [own a ha r hr, own b hb q hq]
        exact h a ha r hr b hb q hq hsame
    · rw [List.forall_mem_map]
      refine forall₂_congr fun b hb => ?_
      simp only [Overlay.mem_baseTargets (runs b hb), and_imp]
      rfl
  · intro log hlog
    obtain ⟨o, ho, rfl⟩ := List.mem_map.1 hlog
    exact Overlay.baseSize_of_runs (runs o ho)

theorem exists_takesOut_of_removers (runs : ∀ o ∈ os, v.Runs P o) {w : WorkerId}
    (h : (Sealed.removers (os.map Overlay.toSealed))[c]? = some w) :
    ∃ o ∈ os, o.worker = w ∧ o.TakesOut c ∧ c < v.tree.store.size := by
  rw [Sealed.getElem?_removers] at h
  obtain ⟨log, hfind, rfl⟩ := Option.map_eq_some_iff.1 h
  obtain ⟨o, ho, rfl⟩ := List.mem_map.1 (List.mem_of_find?_eq_some hfind)
  have hmem := List.find?_some hfind
  exact ⟨o, ho, rfl, (Overlay.mem_removals (runs o ho)).1 (of_decide_eq_true hmem)⟩

theorem exists_removers_of_takesOut (runs : ∀ o ∈ os, v.Runs P o) (ha : a ∈ os)
    (out : a.TakesOut c) (hc : c < v.tree.store.size) :
    ∃ w, (Sealed.removers (os.map Overlay.toSealed))[c]? = some w := by
  have hmem := (Overlay.mem_removals (runs a ha)).2 ⟨out, hc⟩
  rw [Sealed.getElem?_removers, ← Option.isSome_iff_exists, Option.isSome_map, List.find?_isSome]
  exact ⟨a.toSealed, List.mem_map_of_mem ha, decide_eq_true hmem⟩

/-- What a worker changes at or below a node that someone takes out, the worker takes out as well,
unless a conflict is found. -/
theorem takesOut_of_targets (hv : v.tree.Sound) (runs : ∀ o ∈ os, v.Runs P o)
    (workers : (os.map (·.worker)).Nodup) (h : v.conflicts (os.map Overlay.toSealed) = [])
    (ha : a ∈ os) (hb : b ∈ os) (out : a.TakesOut c) (hc : c < v.tree.store.size)
    (target : b.Targets x) (hx : x < v.tree.store.size) (below : c ∈ x :: v.tree.ancestors x) :
    b.TakesOut c := by
  obtain ⟨w, hw⟩ := exists_removers_of_takesOut runs ha out hc
  obtain ⟨o, ho, rfl, hout, -⟩ := exists_takesOut_of_removers runs hw
  have hworker := ((conflicts_map_toSealed hv runs).1 h).2 b hb x target hx c below _ hw
  rwa [← List.inj_on_of_nodup_map workers ho hb hworker]

/-- If two workers take out nodes above one another, the uppermost of them are not one above the
other, unless a conflict is found. -/
theorem not_mem_preorder_of_uppermost (hv : v.tree.Sound) (tree : v.tree.IsTree)
    (runs : ∀ o ∈ os, v.Runs P o) (workers : (os.map (·.worker)).Nodup)
    (h : v.conflicts (os.map Overlay.toSealed) = []) (ha : a ∈ os) (hb : b ∈ os) (hab : a ≠ b)
    (hc : v.Reaches c) (hd : v.Reaches d) (hac : a.TakesOut c) (hbd : b.TakesOut d)
    (topc : ∀ y, v.Reaches y → c ∈ v.tree.store.preorder y → y ≠ c → ¬a.TakesOut y)
    (topd : ∀ y, v.Reaches y → d ∈ v.tree.store.preorder y → y ≠ d → ¬b.TakesOut y) :
    c ∉ v.tree.store.preorder d := by
  intro hcd
  have once := Store.uniqueListers_of_nodup tree.once
  obtain ⟨p, hp, hcp, hap⟩ := Overlay.targets_lister_of_takesOut hv tree (runs a ha) hc hac topc
  obtain ⟨q, hq, hdq, hbq⟩ := Overlay.targets_lister_of_takesOut hv tree (runs b hb) hd hbd topd
  by_cases heq : d = c
  · -- both take it out of its parent, and both target the parent
    subst heq
    rw [once.lister_eq q hq p hp d hdq hcp] at hbq
    exact hab (eq_of_targets hv runs workers h ha hb (hp.lt_size hv) hap hbq)
  · have hpd := once.lister_mem_preorder hp hd hcp hcd heq
    have below := Tree.mem_ancestors_of_mem_preorder tree.linked hd hpd
    exact topc d hd hcd heq
      (takesOut_of_targets hv runs workers h hb ha hbd (hd.lt_size hv) hap (hp.lt_size hv) below)

/-- No two workers take out nodes above one node of the view, unless a conflict is found. -/
theorem eq_of_takesOut (hv : v.tree.Sound) (tree : v.tree.IsTree) (runs : ∀ o ∈ os, v.Runs P o)
    (workers : (os.map (·.worker)).Nodup) (h : v.conflicts (os.map Overlay.toSealed) = [])
    (ha : a ∈ os) (hb : b ∈ os) (hc : v.Reaches c) (hd : v.Reaches d) (hac : a.TakesOut c)
    (hbd : b.TakesOut d) (hxc : x ∈ v.tree.store.preorder c) (hxd : x ∈ v.tree.store.preorder d) :
    a = b := by
  by_contra hab
  obtain ⟨c', hc', hcc', hac', topc⟩ := Overlay.exists_uppermost hc hac
  obtain ⟨d', hd', hdd', hbd', topd⟩ := Overlay.exists_uppermost hd hbd
  have hxc' := Store.mem_preorder_trans hxc hcc'
  have hxd' := Store.mem_preorder_trans hxd hdd'
  rcases (Store.uniqueListers_of_nodup tree.once).comparable hc' hd' hxc' hxd' with hbelow | hbelow
  · exact not_mem_preorder_of_uppermost hv tree runs workers h ha hb hab hc' hd' hac' hbd' topc topd
      hbelow
  · exact not_mem_preorder_of_uppermost hv tree runs workers h hb ha (Ne.symm hab) hd' hc' hbd'
      hac' topd topc hbelow

/-- No worker changes anything at or below a node of the tree that another takes out, unless a
conflict is found. -/
theorem eq_of_takesOut_of_targets (hv : v.tree.Sound) (tree : v.tree.IsTree)
    (runs : ∀ o ∈ os, v.Runs P o) (workers : (os.map (·.worker)).Nodup)
    (h : v.conflicts (os.map Overlay.toSealed) = []) (ha : a ∈ os) (hb : b ∈ os) (hc : v.Reaches c)
    (out : a.TakesOut c) (target : b.Targets x) (hx : x ∈ v.tree.store.preorder c) : a = b := by
  have hreached : v.Reaches x := Store.mem_preorder_trans hx hc
  have hboth := takesOut_of_targets hv runs workers h ha hb out (hc.lt_size hv) target
    (hreached.lt_size hv) (Tree.mem_ancestors_of_mem_preorder tree.linked hc hx)
  have hself := Store.mem_preorder_self v.tree.store c
  exact eq_of_takesOut hv tree runs workers h ha hb hc hc out hboth hself hself

/-- The search finds something exactly if there is a clash. -/
theorem conflicts_ne_nil_iff (hv : v.tree.Sound) (runs : ∀ o ∈ os, v.Runs P o)
    (workers : (os.map (·.worker)).Nodup) (removes : v.RemovesApart os) :
    v.conflicts (os.map Overlay.toSealed) ≠ [] ↔ v.Clash os := by
  constructor
  · intro hfound
    by_contra hnone
    refine hfound ((conflicts_map_toSealed hv runs).2 ⟨?_, ?_⟩)
    · intro a ha r hr b hb q hq same
      by_contra apart
      exact hnone (.place ha hb apart hr hq same)
    · intro b hb x target hx c below w hw
      obtain ⟨a, ha, rfl, out, hc⟩ := exists_takesOut_of_removers runs hw
      by_contra apart
      exact hnone (.removed ha hb apart out hc target hx below)
  · intro hclash h
    cases hclash with
    | place ha hb apart hr hq same =>
      exact apart (((conflicts_map_toSealed hv runs).1 h).1 _ ha _ hr _ hb _ hq same)
    | @removed a b ha hb apart c x out hc target hx below =>
      have hboth := takesOut_of_targets hv runs workers h ha hb out hc target hx below
      obtain ⟨tree, hreached⟩ := removes a ha b hb apart c hc out hboth
      have hself := Store.mem_preorder_self v.tree.store c
      have hsame := eq_of_takesOut hv tree runs workers h ha hb hreached hreached out hboth hself
        hself
      exact apart (congrArg Overlay.worker hsame)

theorem RemovesApart.perm (h : v.RemovesApart os) (hperm : os.Perm ps) : v.RemovesApart ps :=
  fun a ha b hb => h a (hperm.mem_iff.2 ha) b (hperm.mem_iff.2 hb)

theorem conflicts_ne_nil_perm (hv : v.tree.Sound) (runs : ∀ o ∈ os, v.Runs P o)
    (workers : (os.map (·.worker)).Nodup) (removes : v.RemovesApart os) (hperm : os.Perm ps) :
    v.conflicts (ps.map Overlay.toSealed) ≠ [] ↔ v.conflicts (os.map Overlay.toSealed) ≠ [] := by
  rw [conflicts_ne_nil_iff hv runs workers removes,
    conflicts_ne_nil_iff hv (fun o ho => runs o (hperm.mem_iff.2 ho))
      ((hperm.map _).nodup_iff.1 workers) (removes.perm hperm)]
  exact ⟨fun h => h.perm hperm.symm, fun h => h.perm hperm⟩

end View

/-! ### What a replay is refused for -/

namespace Verdict

variable {α β : Type}

/-- The request is not refused for a conflict. -/
def Unconflicted : Verdict α → Prop
  | .error (.conflict ..) => False
  | _ => True

theorem Unconflicted.bind {a : Verdict α} {f : α → Verdict β} (ha : a.Unconflicted)
    (hf : ∀ x, (f x).Unconflicted) : Unconflicted (a >>= f) := by
  cases a with
  | error e => cases e <;> exact ha
  | ok x => exact hf x

theorem Unconflicted.foldlM {f : β → α → Verdict β} (hf : ∀ b a, (f b a).Unconflicted)
    (l : List α) (b : β) : Unconflicted (l.foldlM f b) := by
  induction l generalizing b with
  | nil => trivial
  | cons a l ih => exact (hf b a).bind ih

theorem FailsFor.unconflicted {most : Nat} {a : Verdict α}
    (h : a.FailsFor fun e => e.IsLocal ∨ e.IsDepthLimit most) : a.Unconflicted := by
  cases a with
  | ok x => trivial
  | error e =>
    rcases h with hlocal | ⟨attempted, place, rfl⟩
    · cases e <;> trivial
    · trivial

end Verdict

theorem Replay.unconflicted_step (most : Nat) (r : Replay) (ev : Event) :
    (Replay.step most r ev).Unconflicted := by
  cases ev with
  | enter => trivial
  | bring c =>
    by_cases hroom : 1 ≤ Store.capacity - r.store.size
    all_goals
      simp only [step, importNode, Store.push, Store.checkRoom, if_pos, hroom]
      trivial
  | redo record =>
    have happly := (r.store.failsFor_applyEdit r.forward most r.root
      (record.edit.mapIds r.locate)).unconflicted
    unfold step applyRecord
    dsimp only
    split
    · rename_i e hout
      rw [hout] at happly
      cases e <;> exact happly
    · trivial

namespace View

variable {v : View} {os : List Overlay} {P : Overlay → Prop}

/-- The merge is refused for a conflict. -/
def RejectsAsConflict (v : View) (logs : List Sealed) : Prop :=
  ∃ conflict : Conflict, v.merge logs = .error conflict.toError

theorem unconflicted_replay (v : View) (logs : List Sealed) : (v.replay logs).Unconflicted := by
  rw [replay_eq_script]
  exact Verdict.Unconflicted.foldlM (Replay.unconflicted_step _) _ _

/-- A batch of overlays of a view is refused for a conflict exactly if the search finds one. -/
theorem rejectsAsConflict_iff (hv : v.tree.Sound) (runs : ∀ o ∈ os, v.Runs P o) :
    v.RejectsAsConflict (os.map Overlay.toSealed) ↔
      v.conflicts (os.map Overlay.toSealed) ≠ [] := by
  rw [RejectsAsConflict, merge, find?_viewId_of_runs hv runs]
  dsimp only
  cases v.conflicts (os.map Overlay.toSealed) with
  | cons conflict rest => exact iff_of_true ⟨conflict, rfl⟩ (List.cons_ne_nil _ _)
  | nil =>
    refine iff_of_false ?_ (fun h => h rfl)
    rintro ⟨conflict, hreject⟩
    have hmerge : Verdict.Unconflicted (.error conflict.toError : Verdict MergeOutcome) := by
      rw [← hreject]
      exact (v.unconflicted_replay _).bind fun _ => trivial
    exact hmerge

/-- The search for conflicts finds something exactly if two workers clash, and then in any order of
the list. So it does not depend on that order either whether a batch is refused for a conflict. -/
theorem conflicts_ne_nil_iff_clash (hv : Lineage v.tree) (runs : ∀ o ∈ os, v.Runs (fun _ => True) o)
    (workers : (os.map (·.worker)).Nodup) (removes : v.RemovesApart os) :
    (v.conflicts (os.map Overlay.toSealed) ≠ [] ↔ v.Clash os) ∧
      ∀ ps, os.Perm ps →
        (v.conflicts (ps.map Overlay.toSealed) ≠ [] ↔ v.Clash os) ∧
        (v.RejectsAsConflict (ps.map Overlay.toSealed) ↔
          v.RejectsAsConflict (os.map Overlay.toSealed)) := by
  have hfound := conflicts_ne_nil_iff hv.sound runs workers removes
  refine ⟨hfound, fun ps hperm => ?_⟩
  have hsame := conflicts_ne_nil_perm hv.sound runs workers removes hperm
  refine ⟨hsame.trans hfound, ?_⟩
  rw [rejectsAsConflict_iff hv.sound runs,
    rejectsAsConflict_iff hv.sound fun o ho => runs o (hperm.mem_iff.2 ho)]
  exact hsame

/-- One overlay takes out slot 2, the other changes slot 0 below it. -/
def clashing : List Overlay :=
  [View.sample.overlayAfter 0 [.shared (.remove 4 2)],
    View.sample.overlayAfter 1 [.shared (.setWhitespace 0 ⟨" ", ""⟩)]]

theorem conflicts_ne_nil_iff_clash_clashing :
    View.sample.Clash clashing ∧ ∀ ps, clashing.Perm ps →
      View.sample.RejectsAsConflict (ps.map Overlay.toSealed) := by
  have hruns : ∀ o ∈ clashing, View.sample.Runs (fun _ => True) o := by
    refine List.forall_mem_cons.2 ⟨View.runs_overlayAfter fun _ _ => trivial, ?_⟩
    exact List.forall_mem_singleton.2 (View.runs_overlayAfter fun _ _ => trivial)
  have hapart : ∀ a ∈ clashing, ∀ b ∈ clashing, a.worker ≠ b.worker →
      ∀ c ∈ a.records.filterMap (·.edit.detached?), c ∉ b.records.filterMap (·.edit.detached?) := by
    decide +kernel
  have hremoves : View.sample.RemovesApart clashing := fun a ha b hb hne c _ hac hbc =>
    absurd (List.mem_filterMap.2 hbc) (hapart a ha b hb hne c (List.mem_filterMap.2 hac))
  have hfound : View.sample.conflicts (clashing.map Overlay.toSealed) ≠ [] := by decide +kernel
  obtain ⟨hclash, hperm⟩ := conflicts_ne_nil_iff_clash (.built Context.finish_strayNodes) hruns
    (by decide +kernel) hremoves
  have hsound := (Lineage.built Context.finish_strayNodes).sound
  exact ⟨hclash.1 hfound, fun ps hps =>
    (hperm ps hps).2.2 ((rejectsAsConflict_iff hsound hruns).2 hfound)⟩

/-- Slot 3 lists 1 and 2. Slot 0 is not part of the tree. -/
def looseNodes : List Node :=
  [Context.leafAt 7, Context.blockAt 2 [], Context.blockAt 3 [], Context.blockAt 1 [1, 2]]

/-- A view of the tree below slot 3. -/
def loose : View :=
  .ofTree 0 (((Store.build looseNodes).finish 3).toOption.getD ⟨.empty, 0⟩) {}

/-- One overlay brings in slot 0, changes it and takes it out. -/
def looseFirst : Overlay :=
  loose.overlayAfter 0
    [.insertAt 1 0 0, .shared (.setWhitespace 0 ⟨" ", ""⟩), .shared (.remove 1 0)]

/-- The other brings in slot 0 at another place and takes it out. -/
def looseSecond : Overlay :=
  loose.overlayAfter 1 [.insertAt 2 0 0, .shared (.remove 2 0)]

/-- Both workers take out slot 0 and one of them changes it, which is found in one order only. -/
theorem conflicts_loose :
    loose.Clash [looseFirst, looseSecond] ∧
      loose.conflicts [looseFirst.toSealed, looseSecond.toSealed] = [] ∧
      loose.conflicts [looseSecond.toSealed, looseFirst.toSealed] =
        [⟨(Context.leafAt 7).stableId, [1, 0], .detachedSubtree⟩] := by
  refine ⟨?_, by decide +kernel, by decide +kernel⟩
  have hout : 0 ∈ looseSecond.records.filterMap (·.edit.detached?) := by decide +kernel
  have htarget : 0 ∈ looseFirst.records.map (·.edit.target) := by decide +kernel
  exact .removed (List.mem_cons_of_mem _ List.mem_cons_self) List.mem_cons_self (by decide +kernel)
    (List.mem_filterMap.1 hout) (by decide +kernel) (List.mem_map.1 htarget) (by decide +kernel)
    List.mem_cons_self

end View

end TreeEdit
