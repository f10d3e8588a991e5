import Mathlib.Logic.Relation
import TreeEdit.Proofs.Assignment
import TreeEdit.Proofs.CanonicalLogs
import TreeEdit.Proofs.WorkerOrder

/-!
# Copies are kept track of

As long as no generation reaches a slot twice, a node is on one chain of links only: it begins at
the node itself, and ends at the latest copy. `Store.Tracks` puts together what the two tables are
then good for. Editors, overlays and merges all extend the tables by copying paths, so for each of
them it follows from what one edit does.
-/

namespace TreeEdit

namespace Forward

variable {f : Forward} {n : Nat}

/-- `resolve` goes along links only. -/
theorem reflTransGen_resolve (h : f.Ascending n) (x : NodeId) :
    Relation.ReflTransGen (fun a b => f.links.get? a = some b) x (f.resolve x) := by
  refine chain_induction h (P := fun x =>
    Relation.ReflTransGen (fun a b => f.links.get? a = some b) x (f.resolve x))
    (fun x hx => ?_) (fun x y hx hy => ?_) x
  · rw [resolve_of_current hx]
  · rw [resolve_of_link h hx]
    exact .head hx hy

/-- No link leads to what a slot goes back to. -/
theorem Coherent.links_ne_origin (h : f.Coherent n) (x z : NodeId) :
    f.links.get? z ≠ some (f.origin x) := by
  intro hz
  have hlt := (h.ascending z _ hz).1
  have horigin : f.origin x = f.origin z := by
    rw [← h.origin_link z _ hz, h.origin_origin]
  exact absurd hlt (Nat.not_lt.2 (horigin ▸ h.descending.origin_le z))

end Forward

namespace Store

variable {s : Store} {f : Forward} {root : NodeId}

/-- The two tables keep track of copies. -/
structure Tracks (s : Store) (f : Forward) : Prop where
  /-- A link leads to a later slot. -/
  later : ∀ x y, f.links.get? x = some y → x < y
  /-- The latest copy is found along links, and has not been copied. -/
  follows : ∀ x, Relation.ReflTransGen (fun a b => f.links.get? a = some b) x (f.resolve x)
  latest : ∀ x, f.isSuperseded (f.resolve x) = false
  origin_resolve : ∀ x, f.origin (f.resolve x) = f.origin x
  resolve_origin : ∀ x, f.resolve (f.origin x) = f.resolve x
  /-- What a slot goes back to is no copy, and has taken no other slot's place. -/
  original : ∀ x, f.origins.get? (f.origin x) = none ∧ ∀ z, f.links.get? z ≠ some (f.origin x)
  resolve_eq_iff : ∀ x y, f.resolve x = f.resolve y ↔ f.origin x = f.origin y
  /-- All slots of a chain have one stable name. -/
  name_resolve : ∀ x, s.stableId? (f.resolve x) = s.stableId? x
  name_origin : ∀ x, s.stableId? (f.origin x) = s.stableId? x

theorem Traced.tracks (h : s.Traced f root) (hback : s.TracesBack f) : s.Tracks f where
  later x y hxy := (h.coherent.ascending x y hxy).1
  follows := Forward.reflTransGen_resolve h.coherent.ascending
  latest x := Forward.isSuperseded_eq_false_iff.2 (Forward.links_resolve h.coherent.ascending x)
  origin_resolve := h.coherent.origin_resolve
  resolve_origin := h.coherent.resolve_origin
  original x := ⟨hback.earlier.origins_of_origin_eq (h.coherent.origin_origin x),
    h.coherent.links_ne_origin x⟩
  resolve_eq_iff _ _ := h.coherent.resolve_eq_iff
  name_resolve := hback.stableId?_resolve h.coherent.ascending h.coherent.origin_link
  name_origin := hback.same

end Store

/-! ### Editors -/

namespace Context

variable {c : Context}

theorem tracesBack_perform (hs : c.Sound) (h : c.store.TracesBack c.forward) (call : Call) :
    (c.perform call).1.store.TracesBack (c.perform call).1.forward := by
  have hstep := step_perform c call
  generalize (c.perform call).1 = c', (c.perform call).2 = answer at hstep ⊢
  cases hstep with
  | refused err store root forward limits => rwa [store, forward]
  | created n asked checked recent store root forward limits =>
    rw [store, forward]
    exact h.append _
  | edited asked found done root forward limits =>
    rw [forward]
    exact h.edited done hs.store

theorem tracesBack_run {t : Tree} (ht : t.Sound) (limits : Limits) (calls : List Call) :
    ((ofTree t limits).run calls).store.TracesBack ((ofTree t limits).run calls).forward := by
  have hall : ((ofTree t limits).run calls).Sound ∧
      ((ofTree t limits).run calls).store.TracesBack ((ofTree t limits).run calls).forward :=
    run_induction (P := fun c => c.Sound ∧ c.store.TracesBack c.forward)
      (fun _ call h => ⟨h.1.perform call, tracesBack_perform h.1 h.2 call⟩)
      ⟨Sound.ofTree ht limits, Store.tracesBack_empty _⟩ calls
  exact hall.2

theorem tracks_of_runsOnce (h : c.RunsOnce) : c.store.Tracks c.forward := by
  obtain ⟨t, limits, calls, ht, once, rfl⟩ := h
  exact (traced_run ht.sound limits calls once).tracks (tracesBack_run ht.sound limits calls)

theorem runsOnce_of_inits {t : Tree} {limits : Limits} {calls : List Call} (ht : Lineage t)
    (once : ∀ part ∈ calls.inits, ((ofTree t limits).run part).tree.ReachesOnce) :
    ((ofTree t limits).run calls).RunsOnce :=
  ⟨t, limits, calls, ht, fun part hpart => once part ((List.mem_inits _ _).2 hpart), rfl⟩

end Context

/-! ### Overlays -/

theorem Overlay.tracks_of_runs {v : View} {o : Overlay} (hv : v.tree.Sound)
    (h : v.Runs ReachesOnce o) : o.shadow.Tracks o.forward :=
  (traced_of_runs hv h).tracks (tracesBack_of_runs hv h)

/-! ### Merges -/

namespace Replay

variable {base most : Nat} {done : List Created} {ev : Event} {r r' : Replay}

theorem sound_step (h : Sound base done r) (hready : ev.Ready base done)
    (hstep : step most r ev = .ok r') : Sound base (ev.next done) r' := by
  cases ev with
  | enter =>
    cases hstep
    exact h.enter
  | bring c => exact h.bring hready.named hstep
  | redo record => exact h.redo hstep

theorem traced_step (hs : Sound base done r) (once : r.ReachesOnce)
    (h : r.store.Traced r.forward r.root) (hstep : step most r ev = .ok r') :
    r'.store.Traced r'.forward r'.root := by
  cases ev with
  | enter =>
    cases hstep
    exact h
  | bring c => exact traced_importNode h hs.root hstep
  | redo record => exact traced_applyRecord h hs.store once hstep

theorem tracesBack_step (hs : Sound base done r) (h : r.store.TracesBack r.forward)
    (hstep : step most r ev = .ok r') : r'.store.TracesBack r'.forward := by
  cases ev with
  | enter =>
    cases hstep
    exact h
  | bring c =>
    obtain ⟨-, rfl⟩ := importNode_eq_ok hstep
    exact h.append _
  | redo record =>
    obtain ⟨above, current, store, rebuilt, hedited, rfl⟩ := applyRecord_eq_ok hstep
    exact h.edited hedited hs.store

end Replay

namespace View

variable {v : View} {os : List Overlay}

theorem ordered_script {P : Overlay → Prop} (hv : v.tree.Sound) (runs : ∀ o ∈ os, v.Runs P o) :
    Replay.Ordered v.tree.store.size (View.script (os.map Overlay.toSealed)) := by
  refine Replay.ordered_flatMap fun log hlog => ?_
  obtain ⟨o, ho, rfl⟩ := List.mem_map.1 (View.mem_inWorkerOrder.1 hlog)
  exact (Overlay.ordered_of_runs hv (runs o ho)).1

theorem tracks_of_script {P : Overlay → Prop} (hv : v.tree.Sound) (runs : ∀ o ∈ os, v.Runs P o)
    {part : List Event} {r : Replay} (hpart : part <+: View.script (os.map Overlay.toSealed))
    (once : Replay.Along v.shared.limits.maxDepth Replay.ReachesOnce part v.replayStart)
    (hfold : part.foldlM (Replay.step v.shared.limits.maxDepth) v.replayStart = .ok r) :
    r.store.Tracks r.forward := by
  have hall : Replay.Sound v.tree.store.size (Replay.brought part) r ∧
      r.store.Traced r.forward r.root ∧ r.store.TracesBack r.forward := by
    refine ((ordered_script hv runs).initial hpart).induction
      (I := fun done r => Replay.Sound v.tree.store.size done r ∧
        r.store.Traced r.forward r.root ∧ r.store.TracesBack r.forward)
      ?_ once ⟨View.sound_replayStart hv, Store.traced_empty _ _, Store.tracesBack_empty _⟩ hfold
    rintro done r r' ev hready honce ⟨hs, htraced, hback⟩ hstep
    exact ⟨Replay.sound_step hs hready hstep, Replay.traced_step hs honce htraced hstep,
      Replay.tracesBack_step hs hback hstep⟩
  exact hall.2.1.tracks hall.2.2

end View

/-- As long as no generation has reached a slot twice, the tables of an editor, of an overlay, and
of a replay in any of its states keep track of copies. -/
theorem copies_tracked :
    (∀ c : Context, c.RunsOnce → c.store.Tracks c.forward) ∧
    (∀ (v : View) (o : Overlay), Lineage v.tree → v.Runs Overlay.ReachesOnce o →
      o.shadow.Tracks o.forward) ∧
    ∀ (v : View) (os : List Overlay) (part : List Event) (r : Replay), Lineage v.tree →
      (∀ o ∈ os, v.Runs (fun _ => True) o) →
      part <+: View.script (os.map Overlay.toSealed) →
      Replay.Along v.shared.limits.maxDepth Replay.ReachesOnce part v.replayStart →
      part.foldlM (Replay.step v.shared.limits.maxDepth) v.replayStart = .ok r →
      r.store.Tracks r.forward := by
  refine ⟨fun c h => Context.tracks_of_runsOnce h, fun v o hv h => ?_,
    fun v os part r hv runs hpart once hfold => ?_⟩
  · exact Overlay.tracks_of_runs hv.sound h
  · exact View.tracks_of_script hv.sound runs hpart once hfold

theorem copies_tracked_leaving :
    (Context.leaving.forward.resolve 4 = 7 ∧ Context.leaving.forward.origin 7 = 4 ∧
      Context.leaving.store.Tracks Context.leaving.forward) ∧
    (Overlay.leaving.forward.resolve 8 = 15 ∧ Overlay.leaving.forward.origin 8 = 4 ∧
      Overlay.leaving.shadow.Tracks Overlay.leaving.forward) ∧
    ∃ r, View.sample.replay (View.pair.map Overlay.toSealed) = .ok r ∧
      r.forward.isSuperseded 4 = true ∧ r.store.Tracks r.forward := by
  have hv : Lineage Context.strayTree := .built Context.finish_strayNodes
  have hsorted : (View.pair.map Overlay.toSealed).Pairwise (·.worker ≤ ·.worker) := by
    decide +kernel
  obtain ⟨r, hr⟩ := Verdict.exists_eq_ok (show (((View.pair.map Overlay.toSealed).flatMap
    Sealed.events).foldlM (Replay.step View.sample.shared.limits.maxDepth)
      View.sample.replayStart).isOk = true by decide +kernel)
  have hcopied : ∀ r ∈ (((View.pair.map Overlay.toSealed).flatMap Sealed.events).foldlM
      (Replay.step View.sample.shared.limits.maxDepth) View.sample.replayStart).toOption,
        r.forward.isSuperseded 4 = true := by decide +kernel
  have hscript : View.script (View.pair.map Overlay.toSealed) =
      (View.pair.map Overlay.toSealed).flatMap Sealed.events := by
    rw [View.script, View.inWorkerOrder_of_sorted hsorted]
  have hruns : ∀ o ∈ View.pair, View.sample.Runs (fun _ => True) o := by
    refine List.forall_mem_cons.2 ⟨View.runs_overlayAfter fun _ _ => trivial, ?_⟩
    exact List.forall_mem_singleton.2 (View.runs_overlayAfter fun _ _ => trivial)
  refine ⟨⟨by decide +kernel, by decide +kernel, ?_⟩, ⟨by decide +kernel, by decide +kernel, ?_⟩,
    r, ?_, hcopied r (by rw [hr]; rfl), ?_⟩
  · exact copies_tracked.1 Context.leaving (Context.runsOnce_of_inits hv (by decide +kernel))
  · exact copies_tracked.2.1 View.sample Overlay.leaving hv
      (View.runs_overlayAfter (by decide +kernel))
  · rw [View.replay_eq_script, hscript, hr]
  · exact copies_tracked.2.2 View.sample View.pair _ r hv hruns (List.prefix_refl _)
      (View.along_of_sorted hsorted (by decide +kernel)) (by rw [hscript, hr])

end TreeEdit
