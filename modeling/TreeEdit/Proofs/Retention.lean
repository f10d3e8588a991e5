import TreeEdit.Proofs.Detection

/-!
# No edit is lost

If a worker changes a node of the view and the node is still part of the worker's tree in the end,
it is part of the merged tree. The way from the root of the shadow to the node is followed in the
merged tree, step by step. A step that the worker changed is there by the worker's own records. At
any other step the child is one of the view, and another worker may have taken it out. But then
something that the worker changes stands below that child in the view, which is a conflict.
-/

namespace TreeEdit

namespace Overlay

variable {v : View} {o : Overlay} {x y : NodeId}

/-- The value of a reached node, in the terms of the log. -/
theorem mem_children_of_mem_under (hv : v.tree.Sound) (h : v.Runs ReachesOnce o)
    (hy : y ∈ o.shadow.preorder o.root) {n : Node}
    (hn : StartsAs v o.created (o.forward.origin y) n) (hx : x ∈ o.shadow.under y) :
    o.forward.origin x ∈ (reviseAll o.records (o.forward.origin y) n).children := by
  have htraced := traced_of_runs hv h
  refine Store.origin_mem_of_valueOf (Sound.of_runs hv h).shadow (valueOf_of_runs hv h hn) ?_
  rwa [htraced.coherent.resolve_origin, htraced.resolve_eq_self hy]

/-- If something that a worker changes stands below a node of the view in the shadow, something that
the worker changes stands below it in the view. -/
theorem exists_target_below (hv : v.tree.Sound) (h : v.Runs ReachesOnce o)
    (target : o.Targets x) (hx : x < v.tree.store.size) (hy : y ∈ o.shadow.preorder o.root)
    (hview : o.forward.origin y < v.tree.store.size)
    (below : o.forward.resolve x ∈ o.shadow.preorder y) :
    ∃ t, o.Targets t ∧ t ∈ v.tree.store.preorder (o.forward.origin y) := by
  have hsound := Sound.of_runs hv h
  have htraced := traced_of_runs hv h
  induction y using Nat.strong_induction_on with
  | _ y ih =>
    by_cases hown : o.Targets (o.forward.origin y)
    · exact ⟨_, hown, Store.mem_preorder_self _ _⟩
    rcases Store.mem_preorder_iff.1 below with rfl | ⟨z, hz, hbelow⟩
    · rw [htraced.coherent.origin_resolve, hsound.original x (Or.inl hx)] at hown
      exact absurd target hown
    · -- the worker has not changed the node, so the child is one of the view
      obtain ⟨n, hn⟩ := hv.store.full _ hview
      have hmem := mem_children_of_mem_under hv h hy (Or.inl hn) hz
      rw [reviseAll_of_not_target fun record hr heq => hown ⟨record, hr, heq⟩,
        ← hv.store.under_eq hn] at hmem
      obtain ⟨t, ht, htz⟩ := ih z (Store.lt_of_mem_under hz) (Store.mem_preorder_of_mem_under hy hz)
        (Nat.lt_trans (Store.lt_of_mem_under hmem) hview) hbelow
      exact ⟨t, ht, Store.mem_preorder_iff.2 (Or.inr ⟨_, hmem, htz⟩)⟩

end Overlay

namespace Replay

variable {v : View} {o : Overlay} {past : List Overlay} {ρ : WorkerId → NodeId → NodeId}
  {r : Replay} {x y z : NodeId}

/-- A child in the view that no worker takes out stands below the current copy of its parent. -/
theorem Merges.mem_under_of_stays (h : Merges v ρ past r) (hv : v.tree.Sound) {n : Node}
    (hn : v.tree.store.get? y = some n) (hz : z ∈ n.children)
    (hreached : r.forward.resolve y ∈ r.store.preorder r.root)
    (stays : ∀ a ∈ past, a.Targets y → ¬a.TakesOut z) :
    r.forward.resolve z ∈ r.store.under (r.forward.resolve y) := by
  obtain ⟨done, hr⟩ := h.sound
  have hy := Store.lt_size_of_get? hn
  by_cases hother : ∃ a ∈ past, a.Targets y
  · obtain ⟨a, ha, htargets⟩ := hother
    have hvalue := h.own a ha y n (Or.inl hn) fun _ => htargets
    rw [h.view a ha y hy] at hvalue
    have hz' := h.view a ha z (Nat.lt_trans (hv.store.earlier y n hn z hz) hy)
    refine h.traced.mem_under_of_valueOf hr.store hreached hvalue (List.mem_map.2 ⟨z, ?_, hz'⟩)
    refine mem_children_reviseAll_of_stays hz fun record hrecord _ hout => ?_
    exact stays a ha htargets ⟨record, hrecord, hout⟩
  · have hvalue := h.untouched y n hn fun a ha htargets => hother ⟨a, ha, htargets⟩
    exact h.traced.mem_under_of_valueOf hr.store hreached hvalue hz

/-- A step of the way to a node that a worker changes is there in the merged tree. -/
theorem Merges.mem_under (h : Merges v ρ past r) (hv : v.tree.Sound) (ho : o ∈ past)
    (runs : v.Runs Overlay.ReachesOnce o)
    (apart : ∀ a ∈ past, ∀ c t, c < v.tree.store.size → a.TakesOut c → o.Targets t →
      t ∈ v.tree.store.preorder c → a = o)
    (target : o.Targets x) (hx : x < v.tree.store.size) (hy : y ∈ o.shadow.preorder o.root)
    (hz : z ∈ o.shadow.under y) (below : o.forward.resolve x ∈ o.shadow.preorder z)
    (hreached : r.forward.resolve (ρ o.worker (o.forward.origin y)) ∈ r.store.preorder r.root) :
    r.forward.resolve (ρ o.worker (o.forward.origin z)) ∈
      r.store.under (r.forward.resolve (ρ o.worker (o.forward.origin y))) := by
  have hsound := Overlay.Sound.of_runs hv runs
  obtain ⟨done, hr⟩ := h.sound
  have hlt := Nat.lt_of_le_of_lt (Store.le_of_mem_preorder hy) hsound.root
  obtain ⟨n, hn⟩ := (hsound.named y hlt).exists_startsAs hv
  have hmem := Overlay.mem_children_of_mem_under hv runs hy hn hz
  by_cases hown : o.forward.origin y < v.tree.store.size → o.Targets (o.forward.origin y)
  · exact h.traced.mem_under_of_valueOf hr.store hreached (h.own o ho _ n hn hown)
      (List.mem_map_of_mem hmem)
  -- the worker has not changed the node, so it and the child are nodes of the view
  obtain ⟨hview, hnot⟩ := Classical.not_imp.1 hown
  obtain ⟨m, hm⟩ := hv.store.full _ hview
  have hmem := Overlay.mem_children_of_mem_under hv runs hy (Or.inl hm) hz
  rw [reviseAll_of_not_target fun record hrecord heq => hnot ⟨record, hrecord, heq⟩] at hmem
  have hchild := Nat.lt_trans (hv.store.earlier _ m hm _ hmem) hview
  rw [h.view o ho _ hview] at hreached ⊢
  rw [h.view o ho _ hchild]
  refine h.mem_under_of_stays hv hm hmem hreached fun a ha htargets hout => ?_
  obtain ⟨t, ht, htz⟩ := Overlay.exists_target_below hv runs target hx
    (Store.mem_preorder_of_mem_under hy hz) hchild below
  rw [apart a ha _ t hchild hout ht htz] at htargets
  exact hnot htargets

/-- A node that a worker changes and keeps is reached in the merged tree. -/
theorem Merges.reached (h : Merges v ρ past r) (hv : v.tree.Sound) (ho : o ∈ past)
    (runs : v.Runs Overlay.ReachesOnce o)
    (apart : ∀ a ∈ past, ∀ c t, c < v.tree.store.size → a.TakesOut c → o.Targets t →
      t ∈ v.tree.store.preorder c → a = o)
    (target : o.Targets x) (hx : x < v.tree.store.size)
    (hkept : o.forward.resolve x ∈ o.shadow.preorder o.root) :
    r.forward.resolve x ∈ r.store.preorder r.root := by
  have hsound := Overlay.Sound.of_runs hv runs
  have htraced := Overlay.traced_of_runs hv runs
  have horigin : ∀ y, y < v.tree.store.size → o.forward.origin (o.forward.resolve y) = y :=
    fun y hy => (htraced.coherent.origin_resolve y).trans (hsound.original y (Or.inl hy))
  have hway : ∀ y ∈ o.shadow.preorder o.root, o.forward.resolve x ∈ o.shadow.preorder y →
      r.forward.resolve (ρ o.worker (o.forward.origin y)) ∈ r.store.preorder r.root := by
    refine Store.preorder_induction (fun _ => ?_) fun p hp ih c hc below => ?_
    · rw [← Overlay.resolve_root_of_runs hv runs, horigin _ hv.root, h.view o ho _ hv.root, h.top]
      exact Store.mem_preorder_self _ _
    · have hreached := ih (Store.mem_preorder_iff.2 (Or.inr ⟨c, hc, below⟩))
      exact Store.mem_preorder_of_mem_under hreached
        (h.mem_under hv ho runs apart target hx hp hc below hreached)
  have hlast := hway _ hkept (Store.mem_preorder_self _ _)
  rwa [horigin x hx, h.view o ho x hx] at hlast

end Replay

namespace View

variable {v : View} {os : List Overlay}

end View

end TreeEdit
