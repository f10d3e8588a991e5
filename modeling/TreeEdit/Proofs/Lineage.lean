import TreeEdit.Proofs.Building
import TreeEdit.Proofs.Replaying

/-!
# Trees and where they come from

A tree is finished by a builder, taken from an editor, or merged from overlays of a view: these are
the three constructors of `Lineage`, and `Lineage.sound` says that all such trees are sound. The
third case is the only one with work in it. A replay adds the nodes that workers made without
checking them, so it rests on what the logs name.
-/

namespace TreeEdit

/-! ### One event -/

namespace Replay

variable {base most : Nat} {done : List Created} {r r' : Replay} {c : Created} {record : Record}
  {id : NodeId}

theorem importNode_eq_ok (h : r.importNode c = .ok r') :
    r.store.checkRoom 1 = .ok () ∧
      r' = { r with
        store := r.store.append [c.node.mapChildren r.locate]
        imported := r.imported.insert c.id r.store.size } := by
  unfold importNode Store.push at h
  cases hroom : r.store.checkRoom 1 with
  | error err =>
    rw [hroom] at h
    cases h
  | ok u =>
    rw [hroom] at h
    cases h
    exact ⟨rfl, rfl⟩

theorem applyRecord_eq_ok_iff :
    r.applyRecord most record = .ok r' ↔
      ∃ store rebuilt,
        r.store.applyEdit r.forward most r.root (record.edit.mapIds r.locate) =
          (store, .ok rebuilt) ∧
        r' = { r with
          store
          root := rebuilt.root
          forward := r.forward.record rebuilt
          rebuilt := r.rebuilt + rebuilt.copies.length } := by
  constructor
  · intro h
    unfold applyRecord at h
    split at h
    · cases h
    · rename_i store rebuilt happly
      cases h
      exact ⟨store, rebuilt, happly, rfl⟩
  · rintro ⟨store, rebuilt, happly, rfl⟩
    rw [applyRecord, happly]

theorem applyRecord_eq_ok (h : r.applyRecord most record = .ok r') :
    ∃ above current store rebuilt,
      Store.Edited r.store r.forward r.root (record.edit.mapIds r.locate) above current store
        rebuilt ∧
      r' = { r with
        store
        root := rebuilt.root
        forward := r.forward.record rebuilt
        rebuilt := r.rebuilt + rebuilt.copies.length } := by
  obtain ⟨store, rebuilt, happly, rfl⟩ := applyRecord_eq_ok_iff.1 h
  obtain ⟨above, current, -, hedited⟩ := Store.applyEdit_eq_ok happly
  exact ⟨above, current, store, rebuilt, hedited, rfl⟩

/-! ### Sound replays -/

/-- What holds in the middle of a log, after some of its nodes have been brought over. -/
structure Sound (base : Nat) (done : List Created) (r : Replay) : Prop where
  store : r.store.Sound
  root : r.root < r.store.size
  base : base ≤ r.store.size
  ascending : r.forward.Ascending r.store.size
  imported_lt : ∀ id y : NodeId, r.imported[id]? = some y → y < r.store.size
  imported : ∀ c ∈ done, ∃ y, r.imported[c.id]? = some y

theorem Sound.locate_lt (h : Sound base done r) (hid : Named base done id) :
    r.locate id < r.store.size := by
  rw [locate]
  refine Forward.resolve_lt h.ascending ?_
  cases hy : r.imported[id]? with
  | some y => exact h.imported_lt id y hy
  | none =>
    rcases hid with hlt | ⟨c, hc, rfl⟩
    · exact Nat.lt_of_lt_of_le hlt h.base
    · obtain ⟨y, hsome⟩ := h.imported c hc
      rw [hy] at hsome
      cases hsome

theorem Sound.enter (h : Sound base done r) : Sound base [] { r with imported := ∅ } where
  store := h.store
  root := h.root
  base := h.base
  ascending := h.ascending
  imported_lt id y hy := by simp at hy
  imported c hc := by cases hc

theorem Sound.bring (h : Sound base done r)
    (hchildren : ∀ x ∈ c.node.children, Named base done x) (hbring : r.importNode c = .ok r') :
    Sound base (done ++ [c]) r' := by
  obtain ⟨-, rfl⟩ := importNode_eq_ok hbring
  have hsize : (r.store.append [c.node.mapChildren r.locate]).size = r.store.size + 1 := by simp
  constructor
  · refine h.store.append_singleton fun x hx => ?_
    obtain ⟨y, hy, rfl⟩ := List.mem_map.1 hx
    exact h.locate_lt (hchildren y hy)
  · exact hsize ▸ Nat.lt_succ_of_lt h.root
  · exact hsize ▸ Nat.le_succ_of_le h.base
  · exact h.ascending.mono (hsize ▸ Nat.le_succ _)
  · intro id y hy
    rw [hsize]
    simp only [Std.ExtTreeMap.getElem?_insert] at hy
    split at hy
    · cases hy
      exact Nat.lt_succ_self _
    · exact Nat.lt_succ_of_lt (h.imported_lt id y hy)
  · intro d hd
    simp only [Std.ExtTreeMap.getElem?_insert]
    split
    · exact ⟨_, rfl⟩
    · rename_i hne
      rcases List.mem_append.1 hd with hd | hd
      · exact h.imported d hd
      · rw [List.mem_singleton.1 hd] at hne
        simp at hne

theorem Sound.redo (h : Sound base done r) (hredo : r.applyRecord most record = .ok r') :
    Sound base done r' := by
  obtain ⟨above, current, store, rebuilt, hedited, rfl⟩ := applyRecord_eq_ok hredo
  constructor
  · exact hedited.sound h.store
  · exact hedited.root_lt
  · exact Nat.le_trans h.base hedited.size_le
  · show (r.forward.record rebuilt).Ascending store.size
    rw [hedited.record_eq, hedited.copied.size_eq]
    exact h.ascending.recordSpine (hedited.linksUp.nodup h.store) fun a ha =>
      hedited.lt_size_of_mem_spine h.store ha
  · intro id y hy
    exact Nat.lt_of_lt_of_le (h.imported_lt id y hy) hedited.size_le
  · exact h.imported

/-- Replaying a log whose nodes are in order keeps a replay sound. -/
theorem Sound.applyLog {log : Sealed} (h : Sound base done r)
    (hsorted : log.created.Pairwise (·.after ≤ ·.after)) (horder : CreatedInOrder base log.created)
    (hlog : Replay.applyLog most r log = .ok r') : Sound base log.created r' := by
  rw [Replay.applyLog, applyRecords_eq] at hlog
  refine events_induction (I := fun done _ r => Sound base done r) (Q := fun _ => True) ?_ ?_
    hsorted h.enter hlog fun _ _ _ _ => trivial
  · intro done c k r r' hle hr hbring _
    exact hr.bring (horder done c hle) hbring
  · intro done k record r r' _ _ _ hr hredo _
    exact hr.redo hredo

end Replay

/-! ### Merging -/

theorem View.merge_eq_ok {v : View} {logs : List Sealed} {outcome : MergeOutcome}
    (h : v.merge logs = .ok outcome) :
    v.conflicts logs = [] ∧
      ∃ r, v.replay logs = .ok r ∧ outcome.tree = { store := r.store, root := r.root } := by
  unfold merge at h
  split at h
  · cases h
  · split at h
    · cases h
    · rename_i hconflicts
      obtain ⟨r, hreplay, h⟩ := Verdict.bind_eq_ok_iff.1 h
      cases h
      exact ⟨hconflicts, r, hreplay, rfl⟩

theorem View.find?_viewId_of_runs {v : View} {os : List Overlay} {P : Overlay → Prop}
    (hv : v.tree.Sound) (runs : ∀ o ∈ os, v.Runs P o) :
    (os.map Overlay.toSealed).find? (·.viewId ≠ v.id) = none := by
  rw [List.find?_eq_none, List.forall_mem_map]
  intro o ho
  have hof : o.toSealed.viewId = v.id := (Overlay.Sound.of_runs hv (runs o ho)).of_view
  simpa using hof

/-- A batch without conflicts that can be replayed is merged. -/
theorem View.exists_merge {v : View} {os : List Overlay} {P : Overlay → Prop} (hv : v.tree.Sound)
    (runs : ∀ o ∈ os, v.Runs P o) (h : v.conflicts (os.map Overlay.toSealed) = []) {r : Replay}
    (hreplay : v.replay (os.map Overlay.toSealed) = .ok r) :
    ∃ outcome, v.merge (os.map Overlay.toSealed) = .ok outcome ∧
      outcome.tree = { store := r.store, root := r.root } := by
  rw [merge, find?_viewId_of_runs hv runs, h, hreplay]
  exact ⟨_, rfl, rfl⟩

theorem View.exists_merge_of_sorted {v : View} {os : List Overlay} {P : Overlay → Prop}
    (hv : v.tree.Sound) (runs : ∀ o ∈ os, v.Runs P o)
    (sorted : (os.map Overlay.toSealed).Pairwise (·.worker ≤ ·.worker))
    (conflicts : v.conflicts (os.map Overlay.toSealed) = [])
    (ok : ((os.map Overlay.toSealed).foldlM (Replay.applyLog v.shared.limits.maxDepth)
      v.replayStart).isOk = true) :
    ∃ outcome, v.merge (os.map Overlay.toSealed) = .ok outcome := by
  obtain ⟨r, hfold⟩ := Verdict.exists_eq_ok ok
  have hreplay : v.replay (os.map Overlay.toSealed) = .ok r := by
    rwa [View.replay, inWorkerOrder_of_sorted sorted]
  obtain ⟨outcome, hmerge, -⟩ := exists_merge hv runs conflicts hreplay
  exact ⟨outcome, hmerge⟩

theorem View.mem_inWorkerOrder {logs : List Sealed} {log : Sealed} :
    log ∈ View.inWorkerOrder logs ↔ log ∈ logs :=
  (List.mergeSort_perm _ _).mem_iff

theorem Replay.sound_foldlM {v : View} {os : List Overlay} (hos : ∀ o ∈ os, Overlay.Sound v o)
    {logs : List Sealed} (hlogs : ∀ log ∈ logs, ∃ o ∈ os, log = o.toSealed) {most : Nat}
    {r r' : Replay} {done : List Created} (h : Sound v.tree.store.size done r)
    (hfold : logs.foldlM (Replay.applyLog most) r = .ok r') :
    ∃ done', Sound v.tree.store.size done' r' := by
  induction logs generalizing r done with
  | nil =>
    cases hfold
    exact ⟨done, h⟩
  | cons log logs ih =>
    obtain ⟨hlog, hrest⟩ := List.forall_mem_cons.1 hlogs
    obtain ⟨r₁, happly, htail⟩ := Verdict.bind_eq_ok_iff.1 hfold
    obtain ⟨o, ho, rfl⟩ := hlog
    exact ih hrest (h.applyLog (hos o ho).sorted (hos o ho).inOrder happly) htail

theorem View.sound_replayStart {v : View} (hv : v.tree.Sound) :
    Replay.Sound v.tree.store.size [] v.replayStart where
  store := hv.store.layer
  root := by simpa [View.replayStart] using hv.root
  base := by simp [View.replayStart]
  ascending x y h := by simp [View.replayStart, Table.get?] at h
  imported_lt id y h := by simp [View.replayStart] at h
  imported c hc := by cases hc

/-- A merged tree is sound. -/
theorem View.sound_merge {v : View} (hv : v.tree.Sound) {os : List Overlay}
    (hos : ∀ o ∈ os, Overlay.Sound v o) {outcome : MergeOutcome}
    (h : v.merge (os.map Overlay.toSealed) = .ok outcome) : outcome.tree.Sound := by
  obtain ⟨-, r, hreplay, htree⟩ := View.merge_eq_ok h
  have hlogs : ∀ log ∈ View.inWorkerOrder (os.map Overlay.toSealed),
      ∃ o ∈ os, log = o.toSealed := by
    intro log hlog
    obtain ⟨o, ho, rfl⟩ := List.mem_map.1 (View.mem_inWorkerOrder.1 hlog)
    exact ⟨o, ho, rfl⟩
  obtain ⟨done, hr⟩ := Replay.sound_foldlM hos hlogs (View.sound_replayStart hv) hreplay
  rw [htree]
  exact ⟨hr.store, hr.root⟩

/-! ### Lineages -/

/-- The trees that can come about: finished by a builder, taken from an editor, or merged from
overlays of a view. -/
inductive Lineage : Tree → Prop
  | built {nodes : List Node} {root : NodeId} {t : Tree}
      (h : (Store.build nodes).finish root = .ok t) : Lineage t
  | edited {t : Tree} (limits : Limits) (calls : List Call) (h : Lineage t) :
      Lineage ((Context.ofTree t limits).run calls).tree
  | merged {v : View} {os : List Overlay} {outcome : MergeOutcome} (h : Lineage v.tree)
      (runs : ∀ o ∈ os, v.Runs (fun _ => True) o)
      (merge : v.merge (os.map Overlay.toSealed) = .ok outcome) : Lineage outcome.tree

theorem Lineage.sound {t : Tree} (h : Lineage t) : t.Sound := by
  induction h with
  | built h => exact Store.sound_finish h
  | edited limits calls h ih =>
    have hc := (Context.Sound.ofTree ih limits).run calls
    exact ⟨hc.store, hc.root⟩
  | merged h runs merge ih => exact View.sound_merge ih (fun o ho => .of_runs ih (runs o ho)) merge

end TreeEdit
