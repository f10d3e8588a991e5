import TreeEdit.Proofs.Lineage

/-!
# From slots to current copies, along edits

As long as no generation reaches a slot twice, the copies of a node form one chain that ends in the
current generation: the tables are coherent, and nothing in the current generation has been copied.
`Store.Traced` says so, `Traced.edited` is what one edit keeps, and overlays and replays have it all
along.
-/

namespace TreeEdit

namespace Store

variable {s s' : Store} {f : Forward} {root : NodeId} {e : Edit} {above : List NodeId}
  {current : Node} {r : Rebuilt}

/-- The tables of copies are coherent, and no slot of the current generation has been copied. -/
structure Traced (s : Store) (f : Forward) (root : NodeId) : Prop where
  coherent : f.Coherent s.size
  recent : ∀ x ∈ s.preorder root, f.isSuperseded x = false

theorem traced_empty (s : Store) (root : NodeId) : s.Traced {} root where
  coherent := Forward.Coherent.empty s.size
  recent _ _ := rfl

theorem Traced.append (h : s.Traced f root) (hroot : root < s.size) (nodes : List Node) :
    (s.append nodes).Traced f root where
  coherent := h.coherent.mono (by simp)
  recent := by
    rw [preorder_append_of_lt nodes hroot]
    exact h.recent

/-- A slot of the current generation is its own latest copy. -/
theorem Traced.resolve_eq_self (h : s.Traced f root) {x : NodeId} (hx : x ∈ s.preorder root) :
    f.resolve x = x :=
  Forward.resolve_of_current (Forward.isSuperseded_eq_false_iff.1 (h.recent x hx))

theorem Traced.copyable (ht : s.Traced f root) (h : Edited s f root e above current s' r)
    (hs : s.Sound) : f.Copyable (e.target :: above) s.size where
  nodup := h.linksUp.nodup hs
  lt _ ha := h.lt_size_of_mem_spine hs ha
  current a ha := Forward.isSuperseded_eq_false_iff.1 (ht.recent a (h.reached_of_mem_spine hs ha))

theorem Traced.edited (ht : s.Traced f root) (h : Edited s f root e above current s' r)
    (hs : s.Sound) (once : (s.preorder root).Nodup) : s'.Traced (f.record r) r.root where
  coherent := by
    rw [h.record_eq, h.copied.size_eq]
    exact ht.coherent.recordSpine (ht.copyable h hs)
  recent _ hx :=
    h.isSuperseded_eq_false hs (nodup_preorder_iff.1 once)
      (fun _ hy => Forward.isSuperseded_eq_false_iff.2 (ht.coherent.links_of_le hy)) ht.recent hx

/-- What has the root as its current copy has the new root as its current copy after an edit. -/
theorem Traced.resolve_root_edited (ht : s.Traced f root)
    (h : Edited s f root e above current s' r) (hs : s.Sound) {x : NodeId}
    (hx : f.resolve x = root) : (f.record r).resolve x = r.root := by
  rw [h.record_eq, h.root_eq]
  refine ht.coherent.resolve_recordSpine_getElem? (ht.copyable h hs) ?_
  rw [chainTop_eq_getElem?, h.top_eq, hx]

end Store

/-- No slot is reached twice from the root. -/
def Tree.ReachesOnce (t : Tree) : Prop :=
  (t.store.preorder t.root).Nodup

instance (t : Tree) : Decidable t.ReachesOnce :=
  inferInstanceAs (Decidable (t.store.preorder t.root).Nodup)

/-! ### Overlays -/

namespace Overlay

variable {v : View} {o : Overlay}

/-- No slot is reached twice from the root of the shadow. -/
abbrev ReachesOnce (o : Overlay) : Prop :=
  o.tree.ReachesOnce

/-- The shadow of an overlay whose generations reach no slot twice. -/
theorem traced_of_runs (hv : v.tree.Sound) (h : v.Runs ReachesOnce o) :
    o.shadow.Traced o.forward o.root := by
  refine h.induction (I := fun o => o.shadow.Traced o.forward o.root) ?_ ?_
  · intro worker block _
    exact Store.traced_empty _ _
  · intro o o' g _ before htraced hstep
    have hsound := Sound.of_runs hv before
    cases hstep with
    | refused guard limits => exact htraced
    | created n checked room => exact htraced.append hsound.root _
    | recorded guard limits get_target planned depth rebuilt =>
      obtain ⟨above, current, -, hedited⟩ := edited_of_plan planned rebuilt
      exact htraced.edited hedited hsound.shadow before.here

end Overlay

/-! ### Replays -/

namespace Replay

variable {most : Nat} {r r' : Replay} {c : Created} {record : Record}

/-- No slot is reached twice from the root of a replay. -/
abbrev ReachesOnce (r : Replay) : Prop :=
  r.tree.ReachesOnce

theorem traced_importNode (h : r.store.Traced r.forward r.root) (hroot : r.root < r.store.size)
    (hbring : r.importNode c = .ok r') : r'.store.Traced r'.forward r'.root := by
  obtain ⟨-, rfl⟩ := importNode_eq_ok hbring
  exact h.append hroot _

theorem traced_applyRecord (h : r.store.Traced r.forward r.root) (hs : r.store.Sound)
    (once : r.ReachesOnce) (hredo : r.applyRecord most record = .ok r') :
    r'.store.Traced r'.forward r'.root := by
  obtain ⟨above, current, store, rebuilt, hedited, rfl⟩ := applyRecord_eq_ok hredo
  exact h.edited hedited hs once

end Replay

end TreeEdit
