import TreeEdit.Proofs.InPlace

/-!
# Stable names

A copy has the stable name of its model. So a slot has the stable name of the node that it goes back
to, in whatever shape the generations are: this is `Store.TracesBack`, and every edit keeps it. A
record takes the target of its edit back to that node, and carries the stable name of it.
-/

namespace TreeEdit

namespace Store

variable {s s' : Store} {f : Forward} {root x : NodeId} {e : Edit} {above : List NodeId}
  {current : Node} {r : Rebuilt}

/-- The stable name of a slot. -/
def stableId? (s : Store) (x : NodeId) : Option StableId :=
  (s.get? x).map (·.stableId)

theorem stableId?_of_get? {n : Node} (h : s.get? x = some n) : s.stableId? x = some n.stableId := by
  rw [stableId?, h]
  rfl

theorem stableId?_append_of_lt (nodes : List Node) (hx : x < s.size) :
    (s.append nodes).stableId? x = s.stableId? x := by
  rw [stableId?, stableId?, get?_append_of_lt nodes hx]

namespace Edited

theorem stableId?_old (h : Edited s f root e above current s' r) (hx : x < s.size) :
    s'.stableId? x = s.stableId? x := by
  rw [stableId?, stableId?, h.copied.old x hx]

/-- A copy has the stable name of its model. -/
theorem stableId?_copy (h : Edited s f root e above current s' r) {i : Nat}
    (hx : (e.target :: above)[i]? = some x) : s'.stableId? (s.size + i) = s.stableId? x := by
  cases i with
  | zero =>
    obtain rfl : e.target = x := by simpa using hx
    rw [Nat.add_zero, stableId?_of_get? h.copied.bottom, stableId?_of_get? h.get_target,
      Edit.stableId_revise]
  | succ i =>
    have hp := List.getElem?_eq_getElem (Nat.lt_of_succ_lt (List.getElem?_eq_some_iff.1 hx).1)
    obtain ⟨m, hm, -, hget⟩ := h.copied.above i _ x hp hx
    rw [stableId?_of_get? hget, stableId?_of_get? hm, Node.stableId_setChild]

end Edited

/-- Copies go back to earlier slots, and each slot has the stable name of the node that it goes back
to. -/
structure TracesBack (s : Store) (f : Forward) : Prop where
  earlier : f.Descending s.size
  same : ∀ x, s.stableId? (f.origin x) = s.stableId? x

theorem tracesBack_empty (s : Store) : s.TracesBack {} where
  earlier := Forward.Descending.empty s.size
  same _ := rfl

namespace TracesBack

theorem append (h : s.TracesBack f) (nodes : List Node) : (s.append nodes).TracesBack f where
  earlier := h.earlier.mono (by simp)
  same x := by
    rcases Nat.lt_or_ge x s.size with hlt | hge
    · have horigin := Nat.lt_of_le_of_lt (h.earlier.origin_le x) hlt
      rw [stableId?_append_of_lt nodes horigin, stableId?_append_of_lt nodes hlt, h.same]
    · rw [h.earlier.origin_of_le hge]

theorem edited (h : s.TracesBack f) (hedited : Edited s f root e above current s' r)
    (hs : s.Sound) : s'.TracesBack (f.record r) := by
  have hlt : ∀ a ∈ e.target :: above, a < s.size := fun a ha =>
    hedited.lt_size_of_mem_spine hs ha
  have hold : ∀ a, a < s.size → s'.stableId? (f.origin a) = s.stableId? a := fun a ha => by
    rw [hedited.stableId?_old (Nat.lt_of_le_of_lt (h.earlier.origin_le a) ha), h.same]
  rw [hedited.record_eq]
  constructor
  · rw [hedited.copied.size_eq]
    exact h.earlier.recordSpine hlt
  · intro x
    rcases h.earlier.origin_recordSpine_cases hlt x with
      ⟨hx, ho⟩ | ⟨i, a, ha, rfl, ho⟩ | ⟨-, hnone⟩
    · rw [ho, hold x hx, hedited.stableId?_old hx]
    · rw [ho, hold a (hlt a (List.mem_of_getElem? ha)), hedited.stableId?_copy ha]
    · rw [Forward.origin, hnone]
      rfl

/-- The latest copy of a slot has its stable name. -/
theorem stableId?_resolve (h : s.TracesBack f) {n : Nat} (hf : f.Ascending n)
    (horigins : f.KeepsOrigins) (x : NodeId) : s.stableId? (f.resolve x) = s.stableId? x := by
  rw [← h.same (f.resolve x), horigins.origin_resolve hf, h.same]

end TracesBack

end Store

/-! ### Overlays -/

namespace Overlay

variable {v : View} {o : Overlay} {P : Overlay → Prop}

theorem tracesBack_of_runs (hv : v.tree.Sound) (h : v.Runs P o) :
    o.shadow.TracesBack o.forward := by
  refine h.induction (I := fun o => o.shadow.TracesBack o.forward) ?_ ?_
  · intro worker block _
    exact Store.tracesBack_empty _
  · intro o o' g _ before ih hstep
    cases hstep with
    | refused guard limits => exact ih
    | created n checked room => exact ih.append _
    | recorded guard limits get_target planned depth rebuilt =>
      obtain ⟨above, current, -, hedited⟩ := edited_of_plan planned rebuilt
      exact ih.edited hedited (Sound.of_runs hv before).shadow

/-- Every node keeps the stable name that it began with. -/
theorem stableId?_of_startsAs (hv : v.tree.Sound) (h : v.Runs P o) {x : NodeId} {n : Node}
    (hx : StartsAs v o.created x n) : o.shadow.stableId? x = some n.stableId := by
  refine h.induction (I := fun o => ∀ x n, StartsAs v o.created x n →
    o.shadow.stableId? x = some n.stableId) ?_ ?_ x n hx
  · intro worker block _ x n hx
    have hget := hx.resolve_right (by simp [View.newOverlay])
    exact Store.stableId?_of_get? ((Store.get?_layer _ x).trans hget)
  · intro o o' g _ before ih hstep x n hx
    have hsound := Sound.of_runs hv before
    cases hstep with
    | refused guard limits => exact ih x n hx
    | created m checked room =>
      have hold : StartsAs v o.created x n →
          (o.shadow.append [m.mapChildren o.forward.resolve]).stableId? x = some n.stableId := by
        intro hstarts
        rw [Store.stableId?_append_of_lt _ (hsound.lt_size_of_named hstarts.named)]
        exact ih x n hstarts
      rcases hx with hget | ⟨c, hc, rfl, rfl⟩
      · exact hold (Or.inl hget)
      · rcases List.mem_append.1 hc with hc | hc
        · exact hold (Or.inr ⟨c, hc, rfl, rfl⟩)
        · have hnew : (o.shadow.append [m.mapChildren o.forward.resolve]).get? o.shadow.size =
              some (m.mapChildren o.forward.resolve) := Store.get?_append_size_add _ _ 0
          rw [List.mem_singleton.1 hc, Node.stableId_mapChildren]
          exact (Store.stableId?_of_get? hnew).trans (congrArg some (m.stableId_mapChildren _))
    | recorded guard limits get_target planned depth rebuilt =>
      obtain ⟨above, current, -, hedited⟩ := edited_of_plan planned rebuilt
      exact (hedited.stableId?_old (hsound.lt_size_of_named hx.named)).trans (ih x n hx)

/-- A record carries the stable name of the node that it says to be changed. -/
theorem stableId?_target_of_runs (hv : v.tree.Sound) (h : v.Runs P o) {record : Record}
    (hrecord : record ∈ o.records) :
    o.shadow.stableId? record.edit.target = some record.target := by
  refine h.induction (I := fun o => ∀ record ∈ o.records,
    o.shadow.stableId? record.edit.target = some record.target) ?_ ?_ record hrecord
  · intro worker block _ record hrecord
    simp [View.newOverlay, records] at hrecord
  · intro o o' g _ before ih hstep record hrecord
    have hsound := Sound.of_runs hv before
    have hlt : ∀ record ∈ o.records, record.edit.target < o.shadow.size := fun record hr =>
      hsound.lt_size_of_named (hsound.target_named hr)
    cases hstep with
    | refused guard limits => exact ih record hrecord
    | created n checked room =>
      exact (Store.stableId?_append_of_lt _ (hlt record hrecord)).trans (ih record hrecord)
    | @recorded e node value way shadow r guard limits get_target planned depth rebuilt =>
      obtain ⟨above, current, -, hedited⟩ := edited_of_plan planned rebuilt
      have hmem : record ∈ (o.commit node.stableId e shadow r).records := hrecord
      show shadow.stableId? record.edit.target = _
      rw [records_commit] at hmem
      rcases List.mem_append.1 hmem with hmem | hmem
      · rw [hedited.stableId?_old (hlt record hmem), ih record hmem]
      · -- the target was found by its latest copy, and is logged as what that goes back to
        have htraces := tracesBack_of_runs hv before
        have htarget := hsound.lt_size_of_mem_ids hedited e.target_mem_ids
        have horigin := Nat.lt_of_le_of_lt (htraces.earlier.origin_le e.target) htarget
        rw [List.mem_singleton.1 hmem, Edit.target_mapIds, hedited.origin_old htarget,
          hedited.stableId?_old horigin, htraces.same,
          ← htraces.stableId?_resolve hsound.ascending (keepsOrigins_of_runs hv before),
          Store.stableId?_of_get? get_target]

/-- A record carries the stable name that its target began with. -/
theorem target_of_record (hv : v.tree.Sound) (h : v.Runs P o) {record : Record}
    (hrecord : record ∈ o.records) {n : Node}
    (hn : StartsAs v o.created record.edit.target n) : record.target = n.stableId := by
  have hname := stableId?_target_of_runs hv h hrecord
  rw [stableId?_of_startsAs hv h hn] at hname
  exact (Option.some.inj hname).symm

end Overlay

end TreeEdit
