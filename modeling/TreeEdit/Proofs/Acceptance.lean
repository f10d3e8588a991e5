import TreeEdit.Proofs.Following
import TreeEdit.Proofs.Retention

/-!
# Batches that merge

A batch of overlays in which the search finds no conflict is merged. Each worker keeps to nodes that
no other worker changes or takes out, so the log of each can be carried out on what the logs before
it have left, and gives a tree again. `View.exists_merge_of_conflicts_nil` says so for a view of a
finished tree all of whose nodes are part of the tree. The merged tree has the slots of the view and
those that each worker has added, and there has to be room for them.
-/

namespace TreeEdit

namespace View

variable {v : View} {os ps : List Overlay} {o : Overlay}

/-! ### The slots of a merged tree -/

/-- The number of slots of a merged tree: those of the view, and those that each worker has
added. -/
def mergedSize (v : View) : List Overlay → Nat
  | [] => v.tree.store.size
  | o :: os => v.mergedSize os + (o.shadow.size - v.tree.store.size)

theorem mergedSize_append_singleton (v : View) (os : List Overlay) (o : Overlay) :
    v.mergedSize (os ++ [o]) = v.mergedSize os + (o.shadow.size - v.tree.store.size) := by
  induction os with
  | nil => rfl
  | cons a os ih =>
    rw [List.cons_append, mergedSize, ih, mergedSize]
    exact Nat.add_right_comm _ _ _

theorem mergedSize_le_append (v : View) (os ps : List Overlay) :
    v.mergedSize os ≤ v.mergedSize (os ++ ps) := by
  induction ps using List.reverseRecOn with
  | nil => rw [List.append_nil]
  | append_singleton ps o ih =>
    rw [← List.append_assoc, mergedSize_append_singleton]
    exact Nat.le_trans ih (Nat.le_add_right _ _)

theorem mergedSize_perm (v : View) (h : os.Perm ps) : v.mergedSize os = v.mergedSize ps := by
  induction h with
  | nil => rfl
  | cons o _ ih => rw [mergedSize, mergedSize, ih]
  | swap a b os => exact Nat.add_right_comm _ _ _
  | trans _ _ ih ih' => exact ih.trans ih'

/-! ### What the others leave to a worker -/

/-- A slot that is not one of the view, or a node of the view that no other worker takes out, nor
anything above it. -/
def LeftInPlace (v : View) (os : List Overlay) (o : Overlay) (x : NodeId) : Prop :=
  v.tree.store.size ≤ x ∨ ∀ a ∈ os, a ≠ o → a.Leaves v x

/-- A slot that is not one of the view, or a node of the view that no other worker targets and that
none takes out, nor anything above it. -/
def LeftAlone (v : View) (os : List Overlay) (o : Overlay) (x : NodeId) : Prop :=
  v.tree.store.size ≤ x ∨ ∀ a ∈ os, a ≠ o → a.Leaves v x ∧ ¬a.Targets x

theorem LeftAlone.leftInPlace {x : NodeId} (h : v.LeftAlone os o x) : v.LeftInPlace os o x :=
  h.imp_right fun h a ha hne => (h a ha hne).1

/-- In a batch without conflicts, a worker keeps to what the others leave alone. -/
theorem keepsTo_leftAlone {P : Overlay → Prop} (hv : v.tree.Sound) (tree : v.tree.IsTree)
    (runs : ∀ o ∈ os, v.Runs P o) (workers : (os.map (·.worker)).Nodup)
    (h : v.conflicts (os.map Overlay.toSealed) = []) (ho : o ∈ os) :
    o.KeepsTo v (v.LeftAlone os o) := by
  constructor
  · intro x hox
    rcases Nat.lt_or_ge x v.tree.store.size with hx | hx
    · refine Or.inr fun a ha hne => ⟨fun y hy hxy hay => hne ?_, fun hax => hne ?_⟩
      · exact eq_of_takesOut_of_targets hv tree runs workers h ha ho hy hay hox hxy
      · exact eq_of_targets hv runs workers h ha ho hx hax hox
    · exact Or.inl hx
  · intro c x hc hoc hx
    refine Or.inr fun a ha hne => ⟨fun y hy hxy hay => hne ?_, fun hax => hne ?_⟩
    · exact eq_of_takesOut hv tree runs workers h ha ho hy hc hay hoc hxy hx
    · exact (eq_of_takesOut_of_targets hv tree runs workers h ho ha hc hoc hax hx).symm

end View

/-! ### Log after log -/

namespace Replay

variable {v : View} {os past : List Overlay} {o : Overlay} {ρ : WorkerId → NodeId → NodeId}
  {r : Replay} {x : NodeId}

/-- What all workers leave in place is reached. -/
theorem Merges.reached_of_leaves (h : Merges v ρ past r) (hv : v.tree.Sound) (hx : v.Reaches x)
    (left : ∀ a ∈ past, a.Leaves v x) : r.forward.resolve x ∈ r.store.preorder r.root := by
  refine Store.preorder_induction (P := fun x => (∀ a ∈ past, a.Leaves v x) →
    r.forward.resolve x ∈ r.store.preorder r.root) (fun _ => ?_) (fun p hp ih c hc left => ?_)
    x hx left
  · rw [h.top]
    exact Store.mem_preorder_self _ _
  · have hreached := ih fun a ha => (left a ha).lister hc
    obtain ⟨n, hn⟩ := hv.store.full p (Store.lt_size_of_mem_under hc)
    have hchild := hc
    rw [hv.store.under_eq hn] at hchild
    refine Store.mem_preorder_of_mem_under hreached
      (h.mem_under_of_stays hv hn hchild hreached fun a ha _ => ?_)
    exact left a ha c (Store.mem_preorder_of_mem_under hp hc) (Store.mem_preorder_self _ c)

/-- After the logs of some others, the log of a worker can begin. -/
theorem Merges.ready (h : Merges v ρ past r) (hr : r.store.Standing r.forward r.root)
    (hv : v.tree.Sound) (reached : ∀ x, x < v.tree.store.size → v.Reaches x)
    (others : ∀ a ∈ past, a ∈ os ∧ a ≠ o) :
    Ready v (v.LeftInPlace os o) (v.LeftAlone os o) r where
  standing := hr
  base := h.sound.elim fun _ hsound => hsound.base
  original := h.original
  top := h.top
  value x n hx hn := h.untouched x n hn fun a ha =>
    ((hx.resolve_left (Nat.not_le.2 (Store.lt_size_of_get? hn))) a (others a ha).1
      (others a ha).2).2
  edge p c hc hmem := by
    have hp := Store.lt_size_of_mem_under hmem
    have left := hc.resolve_left (Nat.not_le.2 (Nat.lt_trans (Store.lt_of_mem_under hmem) hp))
    have hpast : ∀ a ∈ past, a.Leaves v c := fun a ha => left a (others a ha).1 (others a ha).2
    refine ⟨Or.inr fun a ha hne => (left a ha hne).lister hmem, ?_⟩
    obtain ⟨n, hn⟩ := hv.store.full p hp
    have hchild := hmem
    rw [hv.store.under_eq hn] at hchild
    refine h.mem_under_of_stays hv hn hchild
      (h.reached_of_leaves hv (reached p hp) fun a ha => (hpast a ha).lister hmem) fun a ha _ => ?_
    exact hpast a ha c (Store.mem_preorder_of_mem_under (reached p hp) hmem)
      (Store.mem_preorder_self _ c)

end Replay

namespace View

variable {v : View} {os : List Overlay}

/-- The logs of a batch without conflicts can be carried out one after the other. -/
theorem exists_merges (hv : v.tree.Sound) (tree : v.tree.IsTree)
    (reached : ∀ x, x < v.tree.store.size → v.Reaches x)
    (runs : ∀ o ∈ os, v.Runs Overlay.IsTree o) (workers : (os.map (·.worker)).Nodup)
    (h : v.conflicts (os.map Overlay.toSealed) = []) (room : v.mergedSize os ≤ Store.capacity)
    {front rest : List Overlay}
    (hsplit : os.mergeSort (fun a b => a.worker ≤ b.worker) = front ++ rest) :
    ∃ r, (front.map Overlay.toSealed).foldlM (Replay.applyLog v.shared.limits.maxDepth)
        v.replayStart = .ok r ∧
      Replay.Merges v (v.importedAs (os.map Overlay.toSealed)) front r ∧
      r.store.Standing r.forward r.root ∧ r.store.size = v.mergedSize front := by
  induction front using List.reverseRecOn generalizing rest with
  | nil =>
    exact ⟨v.replayStart, rfl, .start hv _, tree.standing_layer hv, Store.size_layer _⟩
  | append_singleton front o ih =>
    rw [List.append_assoc, List.singleton_append] at hsplit
    obtain ⟨r₀, hfront, hmerges, hstanding, hsize⟩ := ih hsplit
    have hos : ∀ a ∈ front ++ o :: rest, a ∈ os := fun a ha =>
      List.mem_mergeSort.1 (hsplit ▸ ha)
    have hmem : o ∈ os := hos o (by simp)
    -- the logs in front are those of other workers
    have hbefore : ∀ a ∈ front, a ∈ os ∧ a ≠ o := by
      intro a ha
      have hstrict := hsplit ▸ pairwise_worker_lt workers
      have hlt := (List.pairwise_append.1 hstrict).2.2 a ha o List.mem_cons_self
      exact ⟨hos a (List.mem_append_left _ ha), fun heq => absurd (heq ▸ hlt) (Nat.lt_irrefl _)⟩
    have hsound := Overlay.Sound.of_runs hv (runs o hmem)
    have hfits : v.mergedSize (front ++ [o]) ≤ Store.capacity := by
      refine Nat.le_trans (mergedSize_le_append v (front ++ [o]) rest) ?_
      rw [List.append_assoc, List.singleton_append, ← hsplit,
        mergedSize_perm v (List.mergeSort_perm os _)]
      exact room
    have hbase := hsound.base
    rw [mergedSize_append_singleton] at hfits ⊢
    obtain ⟨r, hlog, honce, hfollows⟩ := Replay.carriesOut_of_runs
      (hmerges.ready hstanding hv reached hbefore) hv tree reached (fun _ hx => hx.leftInPlace)
      (fun _ hx => Or.inl hx) (runs o hmem)
      (keepsTo_leftAlone hv tree runs workers h hmem) (by omega)
    have hfold : ((front ++ [o]).map Overlay.toSealed).foldlM
        (Replay.applyLog v.shared.limits.maxDepth) v.replayStart = .ok r := by
      rw [List.map_append, List.foldlM_append, hfront]
      exact (bind_pure _).trans ((Replay.applyLog_eq _ _ _).trans hlog)
    refine ⟨r, hfold, ?_, hfollows.standing, ?_⟩
    · refine hmerges.step hv hsound (fun a ha x hx hax hox => ?_) hlog honce
        (importedAs_eq workers hsplit hfold)
      exact (hbefore a ha).2 (eq_of_targets hv runs workers h (hbefore a ha).1 hmem hx hax hox)
    · have hgrown := hfollows.size_eq hsound
      omega

end View

end TreeEdit
