import TreeEdit.Proofs.Tracing

/-!
# Edits in place

Path copying hides which nodes an edit changes. `Store.valueOf` looks through the copies: the value
of a node is that of its current copy, with each child taken back to the node that it goes back to.
For these values an edit works in place: `Traced.valueOf_edited` says that it revises the value of
its target and leaves every other value alone.

From there, an overlay is its log. `Overlay.valueOf_of_runs` says that the value of a node in the
shadow is the value it began with, revised by the records that target it.
-/

namespace TreeEdit

/-! ### Renaming -/

theorem idxOf_map_of_inj {ids : List NodeId} {g : NodeId → NodeId} {x : NodeId}
    (h : ∀ a ∈ ids, g a = g x → a = x) : (ids.map g).idxOf (g x) = ids.idxOf x := by
  induction ids with
  | nil => rfl
  | cons a ids ih =>
    obtain ⟨ha, hrest⟩ := List.forall_mem_cons.1 h
    rw [List.map_cons]
    by_cases heq : a = x
    · subst heq
      rw [List.idxOf_cons_self, List.idxOf_cons_self]
    · rw [List.idxOf_cons_ne _ heq, List.idxOf_cons_ne _ (mt ha heq), ih hrest]

namespace Node

theorem mapChildren_mapChildren (n : Node) (f g : NodeId → NodeId) :
    (n.mapChildren f).mapChildren g = n.mapChildren fun x => g (f x) := by
  simp [mapChildren]

theorem mapChildren_congr {n : Node} {f g : NodeId → NodeId} (h : ∀ x ∈ n.children, f x = g x) :
    n.mapChildren f = n.mapChildren g := by
  rw [mapChildren, mapChildren, List.map_congr_left h]

theorem mapChildren_eq_self {n : Node} {f : NodeId → NodeId} (h : ∀ x ∈ n.children, f x = x) :
    n.mapChildren f = n := by
  rw [mapChildren, List.map_congr_left h, List.map_id']

end Node

namespace Edit

theorem oldChild?_mem_ids {e : Edit} {x : NodeId} (h : e.oldChild? = some x) : x ∈ e.ids := by
  cases e <;> simp_all [oldChild?, ids]

theorem Fits.oldChild?_mem {e : Edit} {n : Node} {x : NodeId} (hfits : e.Fits n)
    (h : e.oldChild? = some x) : x ∈ n.children := by
  cases e <;> simp_all [oldChild?, Fits]

/-- The children of a revised value were there before or are named by the edit. -/
theorem mem_children_revise_or {e : Edit} {n : Node} {c : NodeId}
    (h : c ∈ (e.revise n).children) : c ∈ n.children ∨ c ∈ e.ids := by
  cases e with
  | replace parent old new =>
    rcases List.mem_or_eq_of_mem_set h with h | rfl
    · exact Or.inl h
    · exact Or.inr (by simp [ids])
  | insert parent index new =>
    rcases List.eq_or_mem_of_mem_insertIdx h with rfl | h
    · exact Or.inr (by simp [ids])
    · exact Or.inl h
  | remove parent child => exact Or.inl (List.mem_of_mem_eraseIdx h)
  | setWhitespace node whitespace => exact Or.inl h
  | setComments node leading trailing => exact Or.inl h

/-- To revise and to rename are one and the same in both orders, if the renaming tells the child
that the edit names from the other children. -/
theorem revise_mapChildren {e : Edit} {n : Node} {g : NodeId → NodeId}
    (h : ∀ x, e.oldChild? = some x → ∀ a ∈ n.children, g a = g x → a = x) :
    (e.mapIds g).revise (n.mapChildren g) = (e.revise n).mapChildren g := by
  cases e with
  | replace parent old new =>
    have hidx := idxOf_map_of_inj (h old rfl)
    simp only [mapIds, revise, Node.setChild, Node.mapChildren, hidx, List.map_set]
  | insert parent index new =>
    simp only [mapIds, revise, Node.insertChild, Node.mapChildren, List.map_insertIdx]
  | remove parent child =>
    have hidx := idxOf_map_of_inj (h child rfl)
    simp only [mapIds, revise, Node.eraseChild, Node.mapChildren, hidx, List.eraseIdx_map]
  | setWhitespace node whitespace => rfl
  | setComments node leading trailing => rfl

end Edit

/-! ### Values -/

namespace Store

variable {s s' : Store} {f : Forward} {root x : NodeId} {e : Edit} {above : List NodeId}
  {current : Node} {r : Rebuilt}

/-- The value of the current copy of a node, with every child taken back to its origin. -/
def valueOf (s : Store) (f : Forward) (x : NodeId) : Option Node :=
  (s.get? (f.resolve x)).map (·.mapChildren f.origin)

theorem valueOf_append (hf : f.Ascending s.size) (nodes : List Node) (hx : x < s.size) :
    (s.append nodes).valueOf f x = s.valueOf f x := by
  rw [valueOf, valueOf, get?_append_of_lt nodes (Forward.resolve_lt hf hx)]

/-- The value of a node that was just added. -/
theorem valueOf_append_size (hf : f.Coherent s.size) (n : Node) :
    (s.append [n]).valueOf f s.size = some (n.mapChildren f.origin) := by
  have hnew := get?_append_size_add s [n] 0
  rw [Nat.add_zero] at hnew
  rw [valueOf, Forward.resolve_of_current (hf.links_of_le (Nat.le_refl _)), hnew]
  rfl

/-- Slots of the current generation have different origins. -/
theorem Traced.origin_inj (ht : s.Traced f root) {a b : NodeId} (ha : a ∈ s.preorder root)
    (hb : b ∈ s.preorder root) (h : f.origin a = f.origin b) : a = b := by
  rw [← ht.resolve_eq_self ha, ← ht.resolve_eq_self hb]
  exact ht.coherent.resolve_eq_iff.2 h

namespace Edited

/-- The origin of an old slot stays. -/
theorem origin_old (h : Edited s f root e above current s' r) (hx : x < s.size) :
    (f.record r).origin x = f.origin x := by
  rw [h.record_eq, Forward.origin_recordSpine_of_lt f hx]

/-- A copy goes back to the same node as its model. -/
theorem origin_copy (h : Edited s f root e above current s' r) (hs : s.Sound) {i : Nat}
    (hx : (e.target :: above)[i]? = some x) : (f.record r).origin (s.size + i) = f.origin x := by
  rw [h.record_eq]
  exact Forward.origin_recordSpine_getElem? f _ (fun _ ha => h.lt_size_of_mem_spine hs ha) hx

theorem map_origin_old (h : Edited s f root e above current s' r) {ids : List NodeId}
    (hids : ∀ c ∈ ids, c < s.size) : ids.map (f.record r).origin = ids.map f.origin :=
  List.map_congr_left fun c hc => h.origin_old (hids c hc)

variable (ht : s.Traced f root) (h : Edited s f root e above current s' r) (hs : s.Sound)
include ht h hs

/-- A node that is not copied keeps its value. -/
theorem valueOf_off_path (hx : x < s.size) (off : f.resolve x ∉ e.target :: above) :
    s'.valueOf (f.record r) x = s.valueOf f x := by
  have hlt := Forward.resolve_lt ht.coherent.ascending hx
  have hresolve : (f.record r).resolve x = f.resolve x := by
    rw [h.record_eq]
    exact ht.coherent.resolve_recordSpine_of_not_mem (ht.copyable h hs) off
  rw [valueOf, valueOf, hresolve, h.copied.old _ hlt]
  cases hn : s.get? (f.resolve x) with
  | none => rfl
  | some n =>
    have hchildren : ∀ c ∈ n.children, c < s.size := fun c hc =>
      Nat.lt_trans (hs.earlier _ n hn c hc) hlt
    simp only [Option.map_some, Node.mapChildren, h.map_origin_old hchildren]

/-- The target gets its revised value. -/
theorem valueOf_target (hx : f.resolve x = e.target) :
    s'.valueOf (f.record r) x = (s.valueOf f x).map fun n => (e.mapIds f.origin).revise n := by
  have hresolve : (f.record r).resolve x = s.size := by
    rw [h.record_eq]
    exact ht.coherent.resolve_recordSpine_getElem? (i := 0) (ht.copyable h hs) (by simp [hx])
  have hchildren := ((check_eq_ok_iff s _).1 h.checked).2.1
  have hreached : ∀ c ∈ current.children, c ∈ s.preorder root := by
    intro c hc
    rw [← h.under_target hs] at hc
    exact mem_preorder_of_mem_under (h.reached_of_mem_spine hs List.mem_cons_self) hc
  -- the children are in the current generation, so their origins tell them apart
  have hrename : (e.mapIds f.origin).revise (current.mapChildren f.origin) =
      (e.revise current).mapChildren f.origin := by
    refine Edit.revise_mapChildren fun y hy a ha heq => ?_
    exact ht.origin_inj (hreached a ha) (hreached y (h.fits.oldChild?_mem hy)) heq
  rw [valueOf, valueOf, hresolve, hx, h.copied.bottom, h.get_target]
  simp only [Option.map_some, hrename]
  simp only [Node.mapChildren, h.map_origin_old hchildren]

/-- A node above the target keeps its value: its new child goes back to the old one. -/
theorem valueOf_ancestor {i : Nat} {p q : NodeId} (hp : (e.target :: above)[i]? = some p)
    (hq : (e.target :: above)[i + 1]? = some q) (hx : f.resolve x = q) :
    s'.valueOf (f.record r) x = s.valueOf f x := by
  have hresolve : (f.record r).resolve x = s.size + (i + 1) := by
    rw [h.record_eq]
    exact ht.coherent.resolve_recordSpine_getElem? (ht.copyable h hs) (hx ▸ hq)
  obtain ⟨n, hn, hmem, hget⟩ := h.copied.above i p q hp hq
  have hlt : ∀ c ∈ n.children, c < s.size := fun c hc =>
    Nat.lt_trans (hs.earlier q n hn c hc) (lt_size_of_get? hn)
  have horigin : (f.record r).origin (s.size + i) = f.origin p := by
    rw [h.record_eq]
    exact Forward.origin_recordSpine_getElem? f _ (ht.copyable h hs).lt hp
  have hsame : (n.children.map f.origin).set (n.children.idxOf p) (f.origin p) =
      n.children.map f.origin := by
    rw [← List.map_set, set_idxOf_self]
  rw [valueOf, valueOf, hresolve, hx, hget, hn]
  simp only [Option.map_some, Node.mapChildren, Node.setChild, List.map_set, horigin,
    h.map_origin_old hlt, hsame]

/-- An edit revises the value of its target and leaves every other value alone. -/
theorem valueOf_eq (hx : x < s.size) :
    s'.valueOf (f.record r) x =
      if f.origin x = f.origin e.target then
        (s.valueOf f x).map fun n => (e.mapIds f.origin).revise n
      else s.valueOf f x := by
  have htarget : f.resolve e.target = e.target :=
    ht.resolve_eq_self (h.reached_of_mem_spine hs List.mem_cons_self)
  by_cases heq : f.origin x = f.origin e.target
  · rw [if_pos heq]
    exact h.valueOf_target ht hs ((ht.coherent.resolve_eq_iff.2 heq).trans htarget)
  · -- the node is above the target or off the path
    rw [if_neg heq]
    by_cases hmem : f.resolve x ∈ e.target :: above
    · obtain ⟨i, hi⟩ := List.mem_iff_getElem?.1 hmem
      cases i with
      | zero =>
        have hfirst : e.target = f.resolve x := by simpa using hi
        exact absurd (ht.coherent.resolve_eq_iff.1 (hfirst.symm.trans htarget.symm)) heq
      | succ i =>
        have hlt : i < (e.target :: above).length :=
          Nat.lt_of_succ_lt (List.getElem?_eq_some_iff.1 hi).1
        exact h.valueOf_ancestor ht hs (List.getElem?_eq_getElem hlt) hi rfl
    · exact h.valueOf_off_path ht hs hx hmem

end Edited

end Store

/-! ### Records that target a node -/

/-- A value after all records that target a node. -/
def reviseAll (records : List Record) (x : NodeId) (n : Node) : Node :=
  records.foldl (fun n record => if record.edit.target = x then record.edit.revise n else n) n

section Records

variable {records : List Record} {record : Record} {x : NodeId} {n : Node}

@[simp] theorem reviseAll_nil (x : NodeId) (n : Node) : reviseAll [] x n = n := rfl

theorem reviseAll_append_singleton (records : List Record) (record : Record) (x : NodeId)
    (n : Node) :
    reviseAll (records ++ [record]) x n =
      if record.edit.target = x then record.edit.revise (reviseAll records x n)
      else reviseAll records x n := by
  simp [reviseAll]

theorem reviseAll_of_not_target (h : ∀ record ∈ records, record.edit.target ≠ x) :
    reviseAll records x n = n := by
  induction records using List.reverseRecOn with
  | nil => rfl
  | append_singleton records record ih =>
    rw [reviseAll_append_singleton, if_neg (h record (by simp))]
    exact ih fun r hr => h r (List.mem_append_left _ hr)

end Records

/-! ### Overlays -/

/-- The value that a node of the view has, or that a node of a log was made with. -/
def StartsAs (v : View) (created : List Created) (x : NodeId) (n : Node) : Prop :=
  v.tree.store.get? x = some n ∨ ∃ c ∈ created, c.id = x ∧ c.node = n

theorem StartsAs.named {v : View} {created : List Created} {x : NodeId} {n : Node}
    (h : StartsAs v created x n) : Named v.tree.store.size created x := by
  rcases h with hget | ⟨c, hc, hid, -⟩
  · exact Or.inl (Store.lt_size_of_get? hget)
  · exact Or.inr ⟨c, hc, hid⟩

theorem Named.exists_startsAs {v : View} {created : List Created} {x : NodeId} (hv : v.tree.Sound)
    (h : Named v.tree.store.size created x) : ∃ n, StartsAs v created x n := by
  rcases h with hview | ⟨c, hc, hid⟩
  · obtain ⟨n, hn⟩ := hv.store.full x hview
    exact ⟨n, Or.inl hn⟩
  · exact ⟨c.node, Or.inr ⟨c, hc, hid, rfl⟩⟩

namespace Overlay

variable {v : View} {o o' : Overlay} {x : NodeId} {n : Node}

/-- The value of a node, as the worker has changed it, with every child taken back to its origin. -/
def valueOf (o : Overlay) (x : NodeId) : Option Node :=
  o.shadow.valueOf o.forward x

theorem Sound.target_named (h : Sound v o) {record : Record} (hrecord : record ∈ o.records) :
    Named v.tree.store.size o.created record.edit.target := by
  obtain ⟨k, hk⟩ := List.mem_iff_getElem?.1 hrecord
  exact (h.recorded k record hk _ record.edit.target_mem_ids).mono (List.filter_subset_self _)

/-- What one more record does to the values of an overlay. -/
theorem Sound.valueOf_commit (h : Sound v o) (ht : o.shadow.Traced o.forward o.root) {e : Edit}
    {above : List NodeId} {current : Node} {shadow : Store} {r : Rebuilt} (target : StableId)
    (hedited : Store.Edited o.shadow o.forward o.root (e.mapIds o.forward.resolve) above current
      shadow r) (hx : Named v.tree.store.size o.created x) (hn : o.valueOf x = some n) :
    (o.commit target e shadow r).valueOf x =
      some (if o.forward.origin e.target = x then (e.mapIds o.forward.origin).revise n else n) := by
  have hedit : (e.mapIds o.forward.resolve).mapIds o.forward.origin =
      e.mapIds o.forward.origin := by
    rw [Edit.mapIds_mapIds]
    exact Edit.mapIds_congr fun y _ => ht.coherent.origin_resolve y
  have hvalue : o.shadow.valueOf o.forward x = some n := hn
  show shadow.valueOf (o.forward.record r) x = _
  rw [hedited.valueOf_eq ht h.shadow (h.lt_size_of_named hx), hedit, Edit.target_mapIds,
    ht.coherent.origin_resolve, h.original x hx, hvalue]
  by_cases heq : o.forward.origin e.target = x
  · rw [if_pos heq.symm, if_pos heq, Option.map_some]
  · rw [if_neg (Ne.symm heq), if_neg heq]

/-- What one more node does to the values of an overlay. -/
theorem Sound.valueOf_create (h : Sound v o) (ht : o.shadow.Traced o.forward o.root) (m : Node)
    (value : StartsAs v o.created x n → o.valueOf x = some (reviseAll o.records x n))
    (hx : StartsAs v
      (o.created ++ [⟨o.shadow.size, m.mapChildren o.forward.origin, o.recordCount⟩]) x n) :
    (o.shadow.append [m.mapChildren o.forward.resolve]).valueOf o.forward x =
      some (reviseAll o.records x n) := by
  have hold : StartsAs v o.created x n →
      (o.shadow.append [m.mapChildren o.forward.resolve]).valueOf o.forward x =
        some (reviseAll o.records x n) := by
    intro hstarts
    rw [Store.valueOf_append h.ascending _ (h.lt_size_of_named hstarts.named)]
    exact value hstarts
  rcases hx with hget | ⟨c, hc, rfl, rfl⟩
  · exact hold (Or.inl hget)
  · rcases List.mem_append.1 hc with hc | hc
    · exact hold (Or.inr ⟨c, hc, rfl, rfl⟩)
    · rw [List.mem_singleton.1 hc]
      have hnone : ∀ record ∈ o.records, record.edit.target ≠ o.shadow.size := fun record hr =>
        Nat.ne_of_lt (h.lt_size_of_named (h.target_named hr))
      rw [Store.valueOf_append_size ht.coherent, reviseAll_of_not_target hnone,
        Node.mapChildren_mapChildren,
        Node.mapChildren_congr fun y _ => ht.coherent.origin_resolve y]

/-- The value of a node in the shadow: what it began with, revised by the records that target it. -/
theorem valueOf_of_runs (hv : v.tree.Sound) (h : v.Runs ReachesOnce o)
    (hx : StartsAs v o.created x n) : o.valueOf x = some (reviseAll o.records x n) := by
  refine h.induction (I := fun o => ∀ x n, StartsAs v o.created x n →
    o.valueOf x = some (reviseAll o.records x n)) ?_ ?_ x n hx
  · intro worker block _ x n hx
    have hget := hx.resolve_right (by simp [View.newOverlay])
    show (v.tree.store.layer.get? x).map (·.mapChildren fun y => y) = some n
    rw [Store.get?_layer, hget, Option.map_some, Node.mapChildren_eq_self fun _ _ => rfl]
  · intro o o' g _ before ih hstep x n hx
    have hsound := Sound.of_runs hv before
    have htraced := traced_of_runs hv before
    cases hstep with
    | refused guard limits => exact ih x n hx
    | created m checked room => exact hsound.valueOf_create htraced m (ih x n) hx
    | @recorded e node value way shadow r guard limits get_target planned depth rebuilt =>
      obtain ⟨above, current, -, hedited⟩ := edited_of_plan planned rebuilt
      have hvalue := hsound.valueOf_commit htraced node.stableId hedited hx.named (ih x n hx)
      have hlt : ∀ y ∈ e.ids, y < o.shadow.size := fun y hy =>
        hsound.lt_size_of_mem_ids hedited hy
      have hedit : e.mapIds (o.forward.record r).origin = e.mapIds o.forward.origin :=
        Edit.mapIds_congr fun y hy => hedited.origin_old (hlt y hy)
      show (o.commit node.stableId e shadow r).valueOf x =
        some (reviseAll (o.commit node.stableId e shadow r).records x n)
      rw [records_commit, reviseAll_append_singleton, hvalue]
      show _ = some (if (e.mapIds (o.forward.record r).origin).target = x then
        (e.mapIds (o.forward.record r).origin).revise _ else _)
      rw [hedit, Edit.target_mapIds]

/-- The slots of one chain of copies go back to one node, in whatever shape the shadow is. -/
theorem keepsOrigins_of_runs {P : Overlay → Prop} (hv : v.tree.Sound) (h : v.Runs P o) :
    o.forward.KeepsOrigins := by
  refine h.induction (I := fun o => o.forward.KeepsOrigins) ?_ ?_
  · intro worker block _ x y hxy
    simp [View.newOverlay, Table.get?] at hxy
  · intro o o' g _ before ih hstep
    have hsound := Sound.of_runs hv before
    cases hstep with
    | refused guard limits => exact ih
    | created m checked room => exact ih
    | @recorded e node value way shadow r guard limits get_target planned depth rebuilt =>
      obtain ⟨above, current, -, hedited⟩ := edited_of_plan planned rebuilt
      show (o.forward.record r).KeepsOrigins
      rw [hedited.record_eq]
      exact ih.recordSpine hsound.ascending (hedited.linksUp.nodup hsound.shadow) fun a ha =>
        hedited.lt_size_of_mem_spine hsound.shadow ha

end Overlay

end TreeEdit
