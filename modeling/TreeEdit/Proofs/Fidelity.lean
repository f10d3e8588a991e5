import Mathlib.Data.List.Infix
import Mathlib.Data.List.TakeWhile
import TreeEdit.Proofs.Conflict
import TreeEdit.Proofs.Generation
import TreeEdit.Proofs.Tracing

/-!
# The log of one overlay replays to its shadow

An overlay carries out each edit at once, on the latest copies of what the worker names, and logs
the nodes that these go back to. A replay of the log alone finds the same copies again. So at every
point of a run the log so far replays to the shadow so far, slot for slot and link for link: this is
`Overlay.InStep`. For a batch of one overlay the merged tree is therefore the shadow.
-/

namespace TreeEdit

/-! ### One entry more -/

namespace Replay

theorem events_append_created (index : Nat) (pending : List Created) (records : List Record)
    {c : Created} (h : index + records.length ≤ c.after) :
    events index (pending ++ [c]) records = events index pending records ++ [.bring c] := by
  induction records generalizing index pending with
  | nil => simp [events]
  | cons record records ih =>
    rw [List.length_cons] at h
    -- the node was made after all these records, so it is due after none of them
    have hlate : (decide (c.after ≤ index)) = false := by
      simp only [decide_eq_false_iff_not]
      omega
    have htake : (pending ++ [c]).takeWhile (·.after ≤ index) =
        pending.takeWhile (·.after ≤ index) := by
      rw [List.takeWhile_append]
      split
      · rename_i hall
        rw [List.takeWhile_cons_of_neg (by simp [hlate]), List.append_nil]
        exact (List.takeWhile_prefix _).eq_of_length hall |>.symm
      · rfl
    have hdrop : (pending ++ [c]).dropWhile (·.after ≤ index) =
        pending.dropWhile (·.after ≤ index) ++ [c] := by
      rw [List.dropWhile_append]
      split
      · rename_i hnone
        rw [List.isEmpty_iff.1 hnone, List.dropWhile_cons_of_neg (by simp [hlate]), List.nil_append]
      · rfl
    rw [events, events, htake, hdrop, ih (index + 1) _ (by omega)]
    simp

theorem events_append_record (index : Nat) (pending : List Created) (records : List Record)
    (record : Record) (h : ∀ c ∈ pending, c.after ≤ index + records.length) :
    events index pending (records ++ [record]) =
      events index pending records ++ [.redo record] := by
  induction records generalizing index pending with
  | nil =>
    have hall : ∀ c ∈ pending, decide (c.after ≤ index) = true := by simpa using h
    simp only [List.nil_append, events, List.takeWhile_eq_self_iff.2 hall,
      List.dropWhile_eq_nil_iff.2 hall, List.map_nil]
  | cons first records ih =>
    have hlater : ∀ c ∈ pending.dropWhile (·.after ≤ index),
        c.after ≤ index + 1 + records.length := by
      intro c hc
      have hle := h c ((List.dropWhile_suffix _).subset hc)
      rw [List.length_cons] at hle
      omega
    rw [List.cons_append, events, events, ih (index + 1) _ hlater]
    simp

end Replay

/-! ### The shadow and the replay of its log -/

namespace Overlay

variable {v : View} {o o' : Overlay} {r : Replay} {g : SharedGuard}

/-- A replay is where a shadow is, and knows the worker's nodes by the same slots. -/
structure InStep (o : Overlay) (r : Replay) : Prop where
  store : r.store = o.shadow
  root : r.root = o.root
  forward : r.forward = o.forward
  imported : ∀ id : NodeId, r.imported[id]?.getD id = id

theorem InStep.locate_eq (h : InStep o r) : r.locate = o.forward.resolve := by
  funext id
  rw [Replay.locate, h.imported, h.forward]

/-- Bringing over the node that was just made. -/
theorem InStep.create (h : InStep o r) (hf : o.forward.Coherent o.shadow.size) {n : Node}
    (room : o.shadow.checkRoom 1 = .ok ()) :
    ∃ r', r.importNode ⟨o.shadow.size, n.mapChildren o.forward.origin, o.recordCount⟩ = .ok r' ∧
      InStep
        { o with
          shadow := o.shadow.append [n.mapChildren o.forward.resolve]
          created := o.created ++
            [⟨o.shadow.size, n.mapChildren o.forward.origin, o.recordCount⟩] } r' := by
  have hnode : (n.mapChildren o.forward.origin).mapChildren o.forward.resolve =
      n.mapChildren o.forward.resolve := by
    simp only [Node.mapChildren, List.map_map]
    congr 1
    exact List.map_congr_left fun x _ => hf.resolve_origin x
  rw [Replay.importNode, h.locate_eq, hnode, h.store, Store.push, room]
  refine ⟨_, rfl, rfl, h.root, h.forward, fun id => ?_⟩
  simp only [Std.ExtTreeMap.getElem?_insert]
  split
  · rename_i heq
    simpa using Nat.compare_eq_eq.1 heq
  · exact h.imported id

/-- Carrying out the edit that was just recorded. -/
theorem InStep.commit (h : InStep o r) (hsound : Sound v o)
    (htraced : o.shadow.Traced o.forward o.root) {most limit : Nat} {e : Edit} {way : Path}
    {value : Node} {shadow : Store} {rebuilt : Rebuilt} (target : StableId)
    (planned : o.shadow.plan o.forward limit o.root (e.mapIds o.forward.resolve) = .ok (way, value))
    (depth : way.length ≤ most) (hrebuild : o.shadow.rebuild way value = (shadow, .ok rebuilt)) :
    ∃ r', r.applyRecord most
        ⟨o.recordCount, target, e.mapIds (o.forward.record rebuilt).origin, o.worker⟩ = .ok r' ∧
      InStep (o.commit target e shadow rebuilt) r' := by
  obtain ⟨above, current, rfl, hedited⟩ := edited_of_plan planned hrebuild
  -- the log goes back to the nodes the worker named, and the replay comes forward again
  have hids : (e.mapIds (o.forward.record rebuilt).origin).mapIds o.forward.resolve =
      e.mapIds o.forward.resolve := by
    rw [Edit.mapIds_mapIds]
    refine Edit.mapIds_congr fun x hx => ?_
    rw [hedited.record_eq,
      Forward.origin_recordSpine_of_lt _ (hsound.lt_size_of_mem_ids hedited hx),
      htraced.coherent.resolve_origin]
  -- the path was found under the limit of the worker, and is within that of the batch as well
  have hplan : o.shadow.plan o.forward most o.root (e.mapIds o.forward.resolve) =
      .ok (⟨(e.mapIds o.forward.resolve).target, above⟩, value) := by
    obtain ⟨hpath, hrest⟩ := Store.plan_eq_ok_iff.1 planned
    obtain ⟨htarget, hget, hup, -, hroot⟩ := Store.path_eq_ok_iff.1 hpath
    refine Store.plan_eq_ok_iff.2 ⟨Store.path_eq_ok_iff.2 ⟨htarget, hget, hup, ?_, hroot⟩, hrest⟩
    exact Nat.le_sub_one_of_lt depth
  have happly : o.shadow.applyEdit o.forward most o.root (e.mapIds o.forward.resolve) =
      (shadow, .ok rebuilt) := (Store.applyEdit_of_plan hplan).trans hrebuild
  refine ⟨{ r with
      store := shadow, root := rebuilt.root, forward := o.forward.record rebuilt
      rebuilt := r.rebuilt + rebuilt.copies.length }, ?_, rfl, rfl, rfl, h.imported⟩
  rw [Replay.applyRecord, h.locate_eq, hids, h.store, h.forward, h.root, happly]

theorem Sound.events_commit (h : Sound v o) (target : StableId) (e : Edit) (shadow : Store)
    (rebuilt : Rebuilt) :
    Replay.events 0 o.created (o.commit target e shadow rebuilt).records =
      Replay.events 0 o.created o.records ++ [.redo
        ⟨o.recordCount, target, e.mapIds (o.forward.record rebuilt).origin, o.worker⟩] := by
  rw [records_commit]
  exact Replay.events_append_record 0 _ _ _ (by simpa using h.after)

/-- The log of an overlay whose generations reach no slot twice replays to its shadow. -/
theorem inStep_of_runs (hv : v.tree.Sound) (h : v.Runs ReachesOnce o) :
    ∃ r, (Replay.events 0 o.created o.records).foldlM (Replay.step v.shared.limits.maxDepth)
      v.replayStart = .ok r ∧ InStep o r := by
  refine h.induction (I := fun o => ∃ r, (Replay.events 0 o.created o.records).foldlM
    (Replay.step v.shared.limits.maxDepth) v.replayStart = .ok r ∧ InStep o r) ?_ ?_
  · intro worker block _
    exact ⟨v.replayStart, rfl, rfl, rfl, rfl, fun id => by simp [View.replayStart]⟩
  · rintro o o' g limits before ⟨r, hreplay, hstep⟩ hone
    have hsound := Sound.of_runs hv before
    have htraced := traced_of_runs hv before
    cases hone with
    | refused guard _ => exact ⟨r, hreplay, hstep.store, hstep.root, hstep.forward, hstep.imported⟩
    | created n checked room =>
      obtain ⟨r', hbring, hstep'⟩ := hstep.create htraced.coherent (n := n) room
      refine ⟨r', ?_, hstep'⟩
      show (Replay.events 0 (o.created ++ [_]) o.records).foldlM _ _ = _
      rw [Replay.events_append_created 0 o.created o.records (by simp)]
      exact Replay.foldlM_concat hreplay hbring
    | @recorded e node value way shadow rebuilt guard _ get_target planned depth hrebuild =>
      rw [limits] at depth
      obtain ⟨r', hredo, hstep'⟩ :=
        hstep.commit hsound htraced node.stableId planned depth hrebuild
      refine ⟨r', ?_, hstep'.store, hstep'.root, hstep'.forward, hstep'.imported⟩
      show (Replay.events 0 o.created
        (o.commit node.stableId e shadow rebuilt).records).foldlM _ _ = _
      rw [hsound.events_commit]
      exact Replay.foldlM_concat hreplay hredo

end Overlay

/-! ### A batch of one -/

theorem View.replay_singleton (v : View) (log : Sealed) :
    v.replay [log] = (Replay.events 0 log.created log.records).foldlM
      (Replay.step v.shared.limits.maxDepth) v.replayStart := by
  rw [replay, inWorkerOrder, List.mergeSort_singleton, List.foldlM_cons, Replay.applyLog,
    Replay.applyRecords_eq]
  exact bind_pure _

/-- The overlay of a worker for the whole tree after some requests. -/
def View.overlayAfter (v : View) (worker : WorkerId) (calls : List OverlayCall) : Overlay :=
  ({ v.newOverlay none with worker } : Overlay).run v.shared calls

theorem View.runs_overlayAfter {v : View} {P : Overlay → Prop} {worker : WorkerId}
    {calls : List OverlayCall} (h : ∀ part ∈ calls.inits, P (v.overlayAfter worker part)) :
    v.Runs P (v.overlayAfter worker calls) := by
  refine .run rfl (.issue worker none (by simp) (h [] (by simp))) calls fun part hpart => ?_
  exact h part ((List.mem_inits _ _).2 hpart)

/-- A view of a tree whose slot 4 lists 2 and 3; 2 lists 1, and 1 lists 0. -/
def View.sample : View :=
  .ofTree 0 Context.strayTree {}

/-- Wrap slot 0 in slot 5, change slot 0 in there, fail, wrap slot 5 once more, and let the outer
wrapper take the place of slot 2. -/
def View.wrapping : List OverlayCall :=
  [.shared (.create (Context.blockAt 6 [0])), .shared (.replace 1 0 5),
    .shared (.setWhitespace 0 ⟨" ", ""⟩), .shared (.remove 2 3),
    .shared (.create (Context.blockAt 7 [5])), .shared (.replace 4 2 14)]

/-- A batch of one overlay merges to the shadow of the overlay: the same root, values and links. -/
theorem View.merge_singleton_eq_shadow {v : View} {o : Overlay} (hv : Lineage v.tree)
    (h : v.Runs Overlay.ReachesOnce o) :
    ∃ outcome, v.merge [o.toSealed] = .ok outcome ∧ outcome.tree = o.tree := by
  have hsound := Overlay.Sound.of_runs hv.sound h
  obtain ⟨r, hreplay, hstep⟩ := Overlay.inStep_of_runs hv.sound h
  have hconflicts : v.conflicts [o.toSealed] = [] := v.conflicts_singleton hsound.own
  have hsingle : v.replay [o.toSealed] = .ok r := (v.replay_singleton _).trans hreplay
  have hruns : ∀ p ∈ [o], v.Runs Overlay.ReachesOnce p := List.forall_mem_singleton.2 h
  obtain ⟨outcome, hmerge, htree⟩ := View.exists_merge hv.sound hruns hconflicts hsingle
  refine ⟨outcome, hmerge, ?_⟩
  rw [htree, hstep.store, hstep.root]
  rfl

theorem View.merge_singleton_eq_shadow_wrapping :
    View.sample.Runs Overlay.ReachesOnce (View.sample.overlayAfter 0 View.wrapping) ∧
      ∃ outcome,
        View.sample.merge [(View.sample.overlayAfter 0 View.wrapping).toSealed] = .ok outcome ∧
          outcome.tree = (View.sample.overlayAfter 0 View.wrapping).tree := by
  have hruns : View.sample.Runs Overlay.ReachesOnce (View.sample.overlayAfter 0 View.wrapping) :=
    View.runs_overlayAfter (by decide +kernel)
  exact ⟨hruns, View.merge_singleton_eq_shadow (.built Context.finish_strayNodes) hruns⟩

end TreeEdit
