import TreeEdit.Proofs.Importing

/-!
# Nodes that a worker takes out

A worker takes a node of the view out by replacing or removing it. As long as neither a node nor
anything above it has been taken out, the node stands where it stood in the view: its current copy
is reached, below the current copy of its parent. This is `Overlay.stands_of_runs`.
-/

namespace TreeEdit

/-! ### Nodes above one another -/

namespace Store.UniqueListers

variable {s : Store} {r x y z : NodeId}

/-- Of two nodes above a third one, one is above the other. -/
theorem comparable (h : UniqueListers s r) (hx : x ∈ s.preorder r) (hy : y ∈ s.preorder r)
    (hzx : z ∈ s.preorder x) (hzy : z ∈ s.preorder y) : x ∈ s.preorder y ∨ y ∈ s.preorder x := by
  -- what holds of the top of one subtree passes down to all of its nodes
  refine preorder_induction (P := fun z => z ∈ s.preorder y → x ∈ s.preorder y ∨ y ∈ s.preorder x)
    Or.inl ?_ z hzx hzy
  intro p hp ih c hc hcy
  rcases eq_or_exists_lister hcy with rfl | ⟨q, hq, hcq⟩
  · exact Or.inr (mem_preorder_of_mem_under hp hc)
  · rw [h.lister_eq q (mem_preorder_trans hq hy) p (mem_preorder_trans hp hx) c hcq hc] at hq
    exact ih hq

/-- A node that is above a child and is not the child itself is above the lister. -/
theorem lister_mem_preorder (h : UniqueListers s r) (hx : x ∈ s.preorder r) (hy : y ∈ s.preorder r)
    (hz : z ∈ s.under x) (hzy : z ∈ s.preorder y) (hne : y ≠ z) : x ∈ s.preorder y := by
  obtain ⟨q, hq, hzq⟩ := (eq_or_exists_lister hzy).resolve_left (Ne.symm hne)
  rwa [h.lister_eq q (mem_preorder_trans hq hy) x hx z hzq hz] at hq

end Store.UniqueListers

/-! ### Children that stay -/

theorem mem_set_idxOf_of_ne {ids : List NodeId} {old new c : NodeId} (hc : c ∈ ids)
    (hne : c ≠ old) : c ∈ ids.set (ids.idxOf old) new := by
  obtain ⟨i, hi⟩ := List.mem_iff_getElem?.1 hc
  refine List.mem_iff_getElem?.2 ⟨i, ?_⟩
  rw [List.getElem?_set_ne, hi]
  rintro rfl
  have hlt := (List.getElem?_eq_some_iff.1 hi).1
  rw [List.getElem?_eq_getElem hlt, List.getElem_idxOf, Option.some.injEq] at hi
  exact hne hi.symm

theorem Edit.mem_children_revise_of_stays {e : Edit} {n : Node} {c : NodeId} (hc : c ∈ n.children)
    (stays : e.detached? ≠ some c) : c ∈ (e.revise n).children := by
  cases e with
  | replace parent old new =>
    by_cases hsame : old = new
    · rw [revise, Node.setChild, ← hsame, set_idxOf_self]
      exact hc
    · have hne : old ≠ c := by simpa [detached?, hsame] using stays
      exact mem_set_idxOf_of_ne hc (Ne.symm hne)
  | insert parent index new =>
    rcases Nat.lt_or_ge n.children.length index with hlong | hfits
    · rwa [revise, Node.insertChild, List.insertIdx_of_length_lt hlong]
    · exact (List.mem_insertIdx hfits).2 (Or.inr hc)
  | remove parent child =>
    have hne : c ≠ child := by simpa [detached?, eq_comm] using stays
    rw [revise, Node.eraseChild, List.eraseIdx_idxOf_eq_erase]
    exact (List.mem_erase_of_ne hne).2 hc
  | setWhitespace node whitespace => exact hc
  | setComments node leading trailing => exact hc

theorem mem_children_reviseAll_of_stays {records : List Record} {x c : NodeId} {n : Node}
    (hc : c ∈ n.children)
    (stays : ∀ record ∈ records, record.edit.target = x → record.edit.detached? ≠ some c) :
    c ∈ (reviseAll records x n).children := by
  induction records using List.reverseRecOn with
  | nil => exact hc
  | append_singleton records record ih =>
    have hearlier := ih fun r hr => stays r (List.mem_append_left _ hr)
    rw [reviseAll_append_singleton]
    split
    · exact Edit.mem_children_revise_of_stays hearlier (stays record (by simp) ‹_›)
    · exact hearlier

/-! ### Children, through the copies -/

namespace Store

variable {s : Store} {f : Forward} {root p c : NodeId} {n : Node}

/-- A node that the value of a reached node lists is listed by its current copy. -/
theorem Traced.mem_under_of_valueOf (ht : s.Traced f root) (hs : s.Sound)
    (hp : f.resolve p ∈ s.preorder root) (hn : s.valueOf f p = some n) (hc : c ∈ n.children) :
    f.resolve c ∈ s.under (f.resolve p) := by
  obtain ⟨m, hm, rfl⟩ := Option.map_eq_some_iff.1 hn
  obtain ⟨y, hy, rfl⟩ := List.mem_map.1 hc
  rw [← hs.under_eq hm] at hy
  rwa [ht.coherent.resolve_origin, ht.resolve_eq_self (mem_preorder_of_mem_under hp hy)]

/-- A slot that the current copy of a node lists goes back to a node that its value lists. -/
theorem origin_mem_of_valueOf (hs : s.Sound) (hn : s.valueOf f p = some n)
    (hc : c ∈ s.under (f.resolve p)) : f.origin c ∈ n.children := by
  obtain ⟨m, hm, rfl⟩ := Option.map_eq_some_iff.1 hn
  rw [hs.under_eq hm] at hc
  exact List.mem_map_of_mem hc

end Store

/-! ### What stays in place -/

/-- A slot is reached from the root of a view. -/
def View.Reaches (v : View) (x : NodeId) : Prop :=
  x ∈ v.tree.store.preorder v.tree.root

instance (v : View) (x : NodeId) : Decidable (v.Reaches x) :=
  inferInstanceAs (Decidable (x ∈ v.tree.store.preorder v.tree.root))

theorem View.Reaches.lt_size {v : View} {x : NodeId} (h : v.Reaches x) (hv : v.tree.Sound) :
    x < v.tree.store.size :=
  Nat.lt_of_le_of_lt (Store.le_of_mem_preorder h) hv.root

namespace Overlay

variable {v : View} {o o' : Overlay} {p x c : NodeId} {n : Node}

/-- Whether a record of the log takes a node out. -/
def TakesOut (o : Overlay) (c : NodeId) : Prop :=
  ∃ record ∈ o.records, record.edit.detached? = some c

instance (o : Overlay) (c : NodeId) : Decidable (o.TakesOut c) :=
  inferInstanceAs (Decidable (∃ record ∈ o.records, record.edit.detached? = some c))

/-- Neither a node of the view nor anything above it has been taken out. -/
def Leaves (o : Overlay) (v : View) (x : NodeId) : Prop :=
  ∀ y, v.Reaches y → x ∈ v.tree.store.preorder y → ¬o.TakesOut y

theorem Leaves.lister (h : o.Leaves v c) (hc : c ∈ v.tree.store.under p) : o.Leaves v p :=
  fun y hy hpy => h y hy (Store.mem_preorder_of_mem_under hpy hc)

/-- The current copy of the root of the view is the root of the shadow. -/
theorem resolve_root_of_runs (hv : v.tree.Sound) (h : v.Runs ReachesOnce o) :
    o.forward.resolve v.tree.root = o.root := by
  refine h.induction (I := fun o => o.forward.resolve v.tree.root = o.root) ?_ ?_
  · intro worker block _
    rfl
  · intro o o' g _ before hroot hstep
    have hsound := Sound.of_runs hv before
    have htraced := traced_of_runs hv before
    cases hstep with
    | refused guard limits => exact hroot
    | created m checked room => exact hroot
    | @recorded e node value way shadow r guard limits get_target planned depth rebuilt =>
      obtain ⟨above, current, -, hedited⟩ := edited_of_plan planned rebuilt
      exact htraced.resolve_root_edited hedited hsound.shadow hroot

end Overlay

end TreeEdit
