import TreeEdit.Proofs.Fidelity
import TreeEdit.Proofs.Importing
import TreeEdit.Proofs.Naming

/-!
# What a merge puts together

A batch that is merged has, for each node of the view, at most one worker that targets it. The logs
are replayed one after the other, each on the copies that the ones before it have left. In terms of
values none of them disturbs another: `View.merge_composes` says that a node of the view gets its
value from the shadow of the worker that targets it, or keeps it if there is none, and that a node
that a worker made has the value that it has in the shadow of that worker. Slots of nodes that
workers made are renamed on the way, by `View.importedAs`.
-/

namespace TreeEdit

/-- The replay of the logs of all workers up to one. -/
def View.replayThrough (v : View) (logs : List Sealed) (worker : WorkerId) : Verdict Replay :=
  ((View.inWorkerOrder logs).takeWhile (·.worker ≤ worker)).foldlM
    (Replay.applyLog v.shared.limits.maxDepth) v.replayStart

/-- The slot that a merge brings a node of a worker to, the slot itself for a node of the view. -/
def View.importedAs (v : View) (logs : List Sealed) (worker : WorkerId) (x : NodeId) : NodeId :=
  match v.replayThrough logs worker with
  | .ok r => r.rename x
  | .error _ => x

namespace Replay

variable {v : View} {o : Overlay} {os past : List Overlay} {ρ : WorkerId → NodeId → NodeId}
  {r₀ r : Replay} {most : Nat}

/-! ### Log after log -/

/-- The logs of some overlays have been replayed, and the nodes of each worker renamed. -/
structure Merges (v : View) (ρ : WorkerId → NodeId → NodeId) (past : List Overlay) (r : Replay) :
    Prop where
  sound : ∃ done, Sound v.tree.store.size done r
  traced : r.store.Traced r.forward r.root
  top : r.forward.resolve v.tree.root = r.root
  original : ∀ x, x < v.tree.store.size → r.forward.origin x = x
  view : ∀ o ∈ past, ∀ x, x < v.tree.store.size → ρ o.worker x = x
  new : ∀ o ∈ past, ∀ c ∈ o.created, v.tree.store.size ≤ ρ o.worker c.id ∧
    ρ o.worker c.id < r.store.size ∧ r.forward.origin (ρ o.worker c.id) = ρ o.worker c.id
  inj : ∀ a ∈ past, ∀ b ∈ past, ∀ c ∈ a.created, ∀ d ∈ b.created,
    ρ a.worker c.id = ρ b.worker d.id → a = b ∧ c.id = d.id
  own : ∀ o ∈ past, ∀ x n, StartsAs v o.created x n → (x < v.tree.store.size → o.Targets x) →
    r.valueOf (ρ o.worker x) = some ((reviseAll o.records x n).mapChildren (ρ o.worker))
  untouched : ∀ x n, v.tree.store.get? x = some n → (∀ o ∈ past, ¬o.Targets x) →
    r.valueOf x = some n

theorem Merges.start (hv : v.tree.Sound) (ρ : WorkerId → NodeId → NodeId) :
    Merges v ρ [] v.replayStart where
  sound := ⟨[], View.sound_replayStart hv⟩
  traced := Store.traced_empty _ _
  top := rfl
  original _ _ := rfl
  view o ho := by cases ho
  new o ho := by cases ho
  inj a ha := by cases ha
  own o ho := by cases ho
  untouched x n hn _ := by
    show (v.tree.store.layer.get? x).map (·.mapChildren fun y => y) = some n
    rw [Store.get?_layer, hn, Option.map_some, Node.mapChildren_eq_self fun _ _ => rfl]

/-- Where the nodes stand that a replayed log is about: in slots that are no copies and that a log
which targets none of them is not about. -/
theorem Merges.place (h : Merges v ρ past r₀) (hbase : v.tree.store.size ≤ r₀.store.size)
    {a : Overlay} (ha : a ∈ past)
    (hapart : ∀ x, x < v.tree.store.size → a.Targets x → ¬o.Targets x) {x : NodeId} {n : Node}
    (hx : StartsAs v a.created x n) (htargets : x < v.tree.store.size → a.Targets x) :
    ρ a.worker x < r₀.store.size ∧ r₀.forward.origin (ρ a.worker x) = ρ a.worker x ∧
      (ρ a.worker x < v.tree.store.size → ¬o.Targets (ρ a.worker x)) := by
  rcases hx with hget | ⟨c, hc, rfl, -⟩
  · have hlt := Store.lt_size_of_get? hget
    rw [h.view a ha x hlt]
    exact ⟨Nat.lt_of_lt_of_le hlt hbase, h.original x hlt, fun _ => hapart x hlt (htargets hlt)⟩
  · obtain ⟨hnew, hlt, horigin⟩ := h.new a ha c hc
    exact ⟨hlt, horigin, fun hview => absurd hview (Nat.not_lt.2 hnew)⟩

/-- The log of one more worker, who targets no node of the view that those before have targeted. -/
theorem Merges.step (h : Merges v ρ past r₀) (hv : v.tree.Sound) (ho : Overlay.Sound v o)
    (hapart : ∀ a ∈ past, ∀ x, x < v.tree.store.size → a.Targets x → ¬o.Targets x)
    (hlog : o.toSealed.events.foldlM (Replay.step most) r₀ = .ok r)
    (honce : Along most ReachesOnce o.toSealed.events r₀) (hρ : ρ o.worker = r.rename) :
    Merges v ρ (past ++ [o]) r := by
  obtain ⟨before, hsound⟩ := h.sound
  -- what the worker targets still has the value of the view, as it had for the worker
  have huntouched : ∀ x n, v.tree.store.get? x = some n → o.Targets x → r₀.valueOf x = some n :=
    fun x n hn htargets => h.untouched x n hn fun a ha hother =>
      hapart a ha x (Store.lt_size_of_get? hn) hother htargets
  have hcarries := carries_applyLog hv ho hsound h.traced h.top h.original huntouched hlog honce
  have hlast : ∀ a ∈ past ++ [o], a ∈ past ∨ a = o := fun a ha =>
    (List.mem_append.1 ha).imp_right List.mem_singleton.1
  have hnew : ∀ c ∈ o.created, r₀.store.size ≤ ρ o.worker c.id := fun c hc =>
    hρ ▸ hcarries.renames.new c hc
  refine ⟨⟨_, hcarries.sound⟩, hcarries.traced, hcarries.top, ?_, ?_, ?_, ?_, ?_, ?_⟩
  · intro x hx
    have horiginal := hcarries.renames.original x (Or.inl hx)
    rwa [hcarries.renames.view x hx] at horiginal
  · intro a ha x hx
    rcases hlast a ha with ha | rfl
    · exact h.view a ha x hx
    · rw [hρ]
      exact hcarries.renames.view x hx
  · intro a ha c hc
    rcases hlast a ha with ha | rfl
    · obtain ⟨hbase, hlt, horigin⟩ := h.new a ha c hc
      refine ⟨hbase, Nat.lt_of_lt_of_le hlt hcarries.grown, ?_⟩
      exact (hcarries.rest _ hlt horigin fun hview => absurd hview (Nat.not_lt.2 hbase)).1
    · have hnamed : Named v.tree.store.size a.created c.id := Or.inr ⟨c, hc, rfl⟩
      refine ⟨Nat.le_trans hsound.base (hnew c hc), ?_, ?_⟩
      · rw [hρ]
        exact hcarries.renames.lt _ hnamed
      · rw [hρ]
        exact hcarries.renames.original _ hnamed
  · intro a ha b hb c hc d hd heq
    rcases hlast a ha with hpast | rfl <;> rcases hlast b hb with hpast' | rfl
    · exact h.inj a hpast b hpast' c hc d hd heq
    · exact absurd (h.new a hpast c hc).2.1 (Nat.not_lt.2 (heq ▸ hnew d hd))
    · exact absurd (h.new b hpast' d hd).2.1 (Nat.not_lt.2 (heq ▸ hnew c hc))
    · rw [hρ] at heq
      exact ⟨rfl, hcarries.renames.inj c hc d hd heq⟩
  · intro a ha x n hx htargets
    rcases hlast a ha with ha | rfl
    · obtain ⟨hlt, horigin, hnot⟩ := h.place hsound.base ha (hapart a ha) hx htargets
      rw [(hcarries.rest _ hlt horigin hnot).2, h.own a ha x n hx htargets]
    · rw [hρ, hcarries.own x n hx htargets, List.take_length]
  · intro x n hn hnone
    have hlt := Store.lt_size_of_get? hn
    have hrest := hcarries.rest x (Nat.lt_of_lt_of_le hlt hsound.base) (h.original x hlt) fun _ =>
      hnone o (by simp)
    rw [hrest.2]
    exact h.untouched x n hn fun a ha => hnone a (List.mem_append_left _ ha)

/-- The logs of a whole batch. -/
theorem Merges.run (hv : v.tree.Sound) (hos : ∀ o ∈ os, Overlay.Sound v o)
    (hapart : os.Pairwise fun a b => ∀ x, x < v.tree.store.size → a.Targets x → ¬b.Targets x)
    (hρ : ∀ front o rest r, os = front ++ o :: rest →
      ((front ++ [o]).map Overlay.toSealed).foldlM (applyLog most) v.replayStart = .ok r →
      ρ o.worker = r.rename)
    {front rest : List Overlay} (hsplit : os = front ++ rest)
    (hfront : (front.map Overlay.toSealed).foldlM (applyLog most) v.replayStart = .ok r₀)
    (h : Merges v ρ front r₀)
    (hfold : (rest.map Overlay.toSealed).foldlM (applyLog most) r₀ = .ok r)
    (honce : Along most ReachesOnce ((rest.map Overlay.toSealed).flatMap Sealed.events) r₀) :
    Merges v ρ os r := by
  -- the replay of the logs in front goes along, since it settles how the next worker is renamed
  induction rest generalizing front r₀ with
  | nil =>
    cases hfold
    rw [hsplit, List.append_nil]
    exact h
  | cons o rest ih =>
    rw [List.map_cons, List.foldlM_cons] at hfold
    rw [List.map_cons, List.flatMap_cons] at honce
    obtain ⟨r₁, hlog, htail⟩ := Verdict.bind_eq_ok_iff.1 hfold
    have hfront' : ((front ++ [o]).map Overlay.toSealed).foldlM (applyLog most) v.replayStart =
        .ok r₁ := by
      rw [List.map_append, List.foldlM_append, hfront]
      exact (bind_pure _).trans hlog
    have hrename := hρ front o rest r₁ hsplit hfront'
    rw [applyLog_eq] at hlog
    have ho : o ∈ os := by simp [hsplit]
    have hbefore : ∀ a ∈ front, ∀ x, x < v.tree.store.size → a.Targets x → ¬o.Targets x := by
      intro a ha
      rw [hsplit] at hapart
      exact (List.pairwise_append.1 hapart).2.2 a ha o List.mem_cons_self
    refine ih ?_ hfront' (h.step hv (hos o ho) hbefore hlog honce.left hrename) htail
      (honce.right hlog)
    rw [hsplit, List.append_assoc, List.singleton_append]

end Replay

/-! ### Batches -/

namespace View

variable {v : View} {os : List Overlay}

/-- The logs of a batch are replayed in the order of the overlays by worker. -/
theorem inWorkerOrder_map_toSealed (os : List Overlay) :
    View.inWorkerOrder (os.map Overlay.toSealed) =
      (os.mergeSort fun a b => a.worker ≤ b.worker).map Overlay.toSealed := by
  refine (List.map_mergeSort (f := Overlay.toSealed) ?_).symm
  intro a _ b _
  rfl

/-- In the order of different workers, the logs up to one are those in front of it and itself. -/
theorem takeWhile_worker {front rest : List Overlay} {o : Overlay}
    (h : (front ++ o :: rest).Pairwise fun a b => a.worker < b.worker) :
    ((front ++ o :: rest).map Overlay.toSealed).takeWhile (·.worker ≤ o.worker) =
      (front ++ [o]).map Overlay.toSealed := by
  obtain ⟨-, hrest, hbefore⟩ := List.pairwise_append.1 h
  have hfront : ∀ log ∈ (front ++ [o]).map Overlay.toSealed,
      decide (log.worker ≤ o.worker) = true := by
    intro log hlog
    obtain ⟨a, ha, rfl⟩ := List.mem_map.1 hlog
    refine decide_eq_true ?_
    rcases List.mem_append.1 ha with ha | ha
    · exact Nat.le_of_lt (hbefore a ha o List.mem_cons_self)
    · rw [List.mem_singleton.1 ha]
      exact Nat.le_refl _
  have hstop : (rest.map Overlay.toSealed).takeWhile (·.worker ≤ o.worker) = [] := by
    cases rest with
    | nil => rfl
    | cons b rest =>
      have hlt := (List.pairwise_cons.1 hrest).1 b List.mem_cons_self
      refine List.takeWhile_cons_of_neg ?_
      rw [decide_eq_true_iff]
      exact Nat.not_le.2 hlt
  rw [List.append_cons, List.map_append, List.takeWhile_append_of_pos hfront, hstop,
    List.append_nil]

/-- Two overlays of a batch without conflicts that target one node of the view are one and the
same. -/
theorem eq_of_targets {P : Overlay → Prop} (hv : v.tree.Sound) (runs : ∀ o ∈ os, v.Runs P o)
    (workers : (os.map (·.worker)).Nodup) (h : v.conflicts (os.map Overlay.toSealed) = [])
    {a b : Overlay} (ha : a ∈ os) (hb : b ∈ os) {x : NodeId} (hx : x < v.tree.store.size)
    (hax : a.Targets x) (hbx : b.Targets x) : a = b := by
  obtain ⟨ra, hra, rfl⟩ := hax
  obtain ⟨rb, hrb, hsame⟩ := hbx
  obtain ⟨n, hn⟩ := hv.store.full _ hx
  have htarget : ra.target = rb.target := by
    rw [Overlay.target_of_record hv (runs a ha) hra (Or.inl hn),
      Overlay.target_of_record hv (runs b hb) hrb (hsame ▸ Or.inl hn)]
  have hmem : ∀ o ∈ os, ∀ r ∈ o.records,
      r ∈ (os.map Overlay.toSealed).flatMap (·.records) := fun o ho r hr =>
    List.mem_flatMap.2 ⟨o.toSealed, List.mem_map_of_mem ho, hr⟩
  have hworker := Sealed.worker_eq_of_sameTargets (List.append_eq_nil_iff.1 h).1 (hmem a ha ra hra)
    (hmem b hb rb hrb) htarget
  rw [(Overlay.Sound.of_runs hv (runs a ha)).own ra hra,
    (Overlay.Sound.of_runs hv (runs b hb)).own rb hrb] at hworker
  exact List.inj_on_of_nodup_map workers ha hb hworker

/-- Overlays of different workers in the order of their workers. -/
theorem pairwise_worker_lt (workers : (os.map (·.worker)).Nodup) :
    (os.mergeSort fun a b => a.worker ≤ b.worker).Pairwise fun a b => a.worker < b.worker := by
  have hsorted : (os.mergeSort fun a b => a.worker ≤ b.worker).Pairwise
      fun a b => a.worker ≤ b.worker := by
    have hpairs := @List.pairwise_mergeSort Overlay (fun a b => a.worker ≤ b.worker)
      (fun a b c hab hbc => ?_) (fun a b => ?_) os
    · exact hpairs.imp fun h => of_decide_eq_true h
    · exact decide_eq_true (Nat.le_trans (of_decide_eq_true hab) (of_decide_eq_true hbc))
    · simpa using Nat.le_total a.worker b.worker
  have hdistinct : (os.mergeSort fun a b => a.worker ≤ b.worker).Pairwise
      fun a b => a.worker ≠ b.worker :=
    List.pairwise_map.1 (((List.mergeSort_perm os _).map Overlay.worker).nodup_iff.2 workers)
  exact (hsorted.and hdistinct).imp fun h => Nat.lt_of_le_of_ne h.1 h.2

theorem importedAs_eq (workers : (os.map (·.worker)).Nodup) {front rest : List Overlay}
    {o : Overlay}
    (hsplit : os.mergeSort (fun a b => a.worker ≤ b.worker) = front ++ o :: rest) {r : Replay}
    (hfold : ((front ++ [o]).map Overlay.toSealed).foldlM
      (Replay.applyLog v.shared.limits.maxDepth) v.replayStart = .ok r) :
    v.importedAs (os.map Overlay.toSealed) o.worker = r.rename := by
  have hthrough : v.replayThrough (os.map Overlay.toSealed) o.worker = .ok r := by
    rw [replayThrough, inWorkerOrder_map_toSealed, hsplit,
      takeWhile_worker (hsplit ▸ pairwise_worker_lt workers)]
    exact hfold
  funext x
  rw [importedAs, hthrough]

/-- The replay of a batch that merges. -/
theorem merges_replay (hv : v.tree.Sound) (runs : ∀ o ∈ os, v.Runs Overlay.ReachesOnce o)
    (workers : (os.map (·.worker)).Nodup) (h : v.conflicts (os.map Overlay.toSealed) = [])
    (once : Replay.Along v.shared.limits.maxDepth Replay.ReachesOnce
      (View.script (os.map Overlay.toSealed)) v.replayStart) {r : Replay}
    (hreplay : v.replay (os.map Overlay.toSealed) = .ok r) :
    Replay.Merges v (v.importedAs (os.map Overlay.toSealed))
      (os.mergeSort fun a b => a.worker ≤ b.worker) r := by
  have hstrict := pairwise_worker_lt workers
  have hos : ∀ o ∈ os.mergeSort fun a b => a.worker ≤ b.worker, o ∈ os := fun o ho =>
    List.mem_mergeSort.1 ho
  rw [View.script, inWorkerOrder_map_toSealed] at once
  rw [View.replay, inWorkerOrder_map_toSealed] at hreplay
  refine Replay.Merges.run hv (fun o ho => .of_runs hv (runs o (hos o ho))) ?_ ?_
    (List.nil_append _).symm rfl (.start hv _) hreplay once
  · refine hstrict.imp_of_mem fun {a b} ha hb hlt x hx hax hbx => ?_
    have hsame := eq_of_targets hv runs workers h (hos a ha) (hos b hb) hx hax hbx
    exact absurd (hsame ▸ hlt) (Nat.lt_irrefl _)
  · intro front o rest r' hsplit hfold
    exact importedAs_eq workers hsplit hfold

/-- Two overlays of a view. One wraps slot 0 in its slot 5 and changes slot 0. The other makes its
slot 5 the last child of slot 4 and changes slot 3. -/
def pair : List Overlay :=
  [View.sample.overlayAfter 0 (View.wrapping.take 3),
    View.sample.overlayAfter 1
      [.shared (.create (Context.leafAt 8)), .insertAt 4 2 5, .shared (.setWhitespace 3 ⟨" ", ""⟩)]]

end View

end TreeEdit
