import TreeEdit.Proofs.Forwarding
import TreeEdit.Proofs.Regeneration

/-!
# The links of the next generation

After an edit the walk that sets links goes through all copies and through what it finds below them
with a wrong link, but not past a child whose link is right. Below kept nodes this is no loss. In
the subtree that enters it is none only if a right link means that the links below it are right as
well: the subtree is `Settled`. `Edited.linked_iff` says that this is the whole condition under
which a generation with right links is followed by one.
-/

namespace TreeEdit.Store

variable {s s' : Store} {f : Forward} {root : NodeId} {e : Edit} {above : List NodeId}
  {current : Node} {r : Rebuilt} {c p x : NodeId} {i : Nat}

/-- Where a link below a slot is right, the links one step further down are right, too. -/
def Settled (s : Store) (id : NodeId) : Prop :=
  ∀ p ∈ s.preorder id, ∀ x ∈ s.under p, s.parent? x = some p →
    ∀ c ∈ s.under x, s.parent? c = some x

namespace Edited

/-! ### The walk through the copies -/

theorem copy_mem_under (h : Edited s f root e above current s' r) (hs : s.Sound)
    (hi : i < above.length) : s.size + i ∈ s'.under (s.size + (i + 1)) := by
  have hd := List.getElem?_eq_getElem (l := e.target :: above) (Nat.lt_succ_of_lt hi)
  have hq := List.getElem?_eq_getElem (l := e.target :: above) (Nat.succ_lt_succ hi)
  obtain ⟨hmem, hunder⟩ := h.under_copy hs hd hq
  rw [hunder]
  exact List.mem_set (List.idxOf_lt_length_of_mem hmem) _

theorem visits_copy (h : Edited s f root e above current s' r) (hs : s.Sound)
    (hi : i ≤ above.length) : Visits s'.under s.parent? [r.root] (s.size + i) := by
  -- from the new root down, which is the last of the copies
  obtain ⟨k, hk⟩ := Nat.exists_eq_add_of_le hi
  induction k generalizing i with
  | zero =>
    obtain rfl : i = above.length := by omega
    rw [← h.root_eq]
    exact .start List.mem_cons_self
  | succ k ih =>
    refine .down (ih (i := i + 1) (by omega) (by omega)) (h.copy_mem_under hs (by omega)) ?_
    rw [hs.parent?_eq_none (Nat.le_add_right _ _)]
    simp

/-- The walk goes to every child of a copy, since no link leads to a slot that is new. -/
theorem visits_of_mem_under_copy (h : Edited s f root e above current s' r) (hs : s.Sound)
    (hi : i ≤ above.length) (hc : c ∈ s'.under (s.size + i)) :
    Visits s'.under s.parent? [r.root] c := by
  refine .down (h.visits_copy hs hi) hc fun hlink => ?_
  exact absurd (hs.parent_lt_size hlink) (Nat.not_lt.2 (Nat.le_add_right _ _))

theorem reached_of_visits (hp : Visits s'.under s.parent? [r.root] p) :
    p ∈ s'.preorder r.root := by
  simpa using hp.mem_reached

theorem visits_entering (h : Edited s f root e above current s' r) (hs : s.Sound)
    (hx : e.entering? = some x) : Visits s'.under s.parent? [r.root] x := by
  refine h.visits_of_mem_under_copy hs (Nat.zero_le _) ?_
  rw [Nat.add_zero, h.under_bottom hs]
  exact Edit.mem_children_of_entering? h.fits hx

/-- What is reached in the subtree that enters is reached from the new root. -/
theorem reached_of_entering (h : Edited s f root e above current s' r) (hs : s.Sound)
    (hx : e.entering? = some x) (hp : p ∈ s.preorder x) : p ∈ s'.preorder r.root := by
  refine mem_preorder_trans ?_ (reached_of_visits (h.visits_entering hs hx))
  rwa [h.preorder_old (h.lt_size_of_entering hx (mem_preorder_self s x))]

/-! ### Links after the walk -/

/-- A link of the new generation is right if the walk came to the lister or found it right. -/
theorem parent?_eq_iff (h : Edited s f root e above current s' r)
    (once' : s'.UniqueListers r.root) (hp : p ∈ s'.preorder r.root) (hc : c ∈ s'.under p) :
    s'.parent? c = some p ↔
      Visits s'.under s.parent? [r.root] p ∨ s.parent? c = some p := by
  by_cases hvisits : Visits s'.under s.parent? [r.root] p
  · simp [hvisits, h.set_link once'.nodup_preorder p hvisits c hc]
  · rw [h.keep_link once'.nodup_preorder c fun q hq hcq => ?_]
    · simp [hvisits]
    · rw [once'.lister_eq q (reached_of_visits hq) p hp c hcq hc] at hq
      exact hvisits hq

/-- The link of a slot that is not reached from the new root stays. -/
theorem parent?_of_not_reached (h : Edited s f root e above current s' r)
    (once' : s'.UniqueListers r.root) (hc : c ∉ s'.preorder r.root) : s'.parent? c = s.parent? c :=
  h.keep_link once'.nodup_preorder c fun _ hp hcp =>
    hc (mem_preorder_of_mem_under (reached_of_visits hp) hcp)

theorem linked_of_settled (h : Edited s f root e above current s' r) (hs : s.Sound)
    (once : s.UniqueListers root) (linked : s.Linked root)
    (settled : ∀ x, e.entering? = some x → s.Settled x) : s'.Linked r.root := by
  have once' := h.uniqueListers hs once linked
  intro p hp c hc
  rw [h.parent?_eq_iff once' hp hc]
  cases h.newNode hs once hp with
  | copy hi => exact Or.inl (h.visits_copy hs (Nat.le_of_lt_succ hi))
  | kept hkept =>
    rw [h.under_old (h.lt_size_of_kept hs hkept)] at hc
    exact Or.inr (linked p (h.reached_of_kept hs hkept) c hc)
  | @inside x _ hx hpx =>
    -- going down, either the walk is still under way or all links have been right one step up
    have hdown : ∀ q ∈ s.preorder x,
        Visits s'.under s.parent? [r.root] q ∨ ∀ d ∈ s.under q, s.parent? d = some q := by
      refine preorder_induction (Or.inl (h.visits_entering hs hx)) ?_
      intro q hq ih d hd
      by_cases hright : s.parent? d = some q
      · exact Or.inr (settled x hx q hq d hd hright)
      · rcases ih with hvisits | hall
        · refine Or.inl (.down hvisits ?_ hright)
          rwa [h.under_old (h.lt_size_of_entering hx hq)]
        · exact absurd (hall d hd) hright
    rw [h.under_old (h.lt_size_of_entering hx hpx)] at hc
    exact (hdown p hpx).imp_right fun hall => hall c hc

theorem settled_of_linked (h : Edited s f root e above current s' r) (hs : s.Sound)
    (once' : s'.UniqueListers r.root) (linked' : s'.Linked r.root)
    (hx : e.entering? = some x) : s.Settled x := by
  intro p hp y hy hright c hc
  have hpr := h.reached_of_entering hs hx hp
  have hyx := mem_preorder_of_mem_under hp hy
  have hyr := h.reached_of_entering hs hx hyx
  have hc' : c ∈ s'.under y := by rwa [h.under_old (h.lt_size_of_entering hx hyx)]
  have hy' : y ∈ s'.under p := by rwa [h.under_old (h.lt_size_of_entering hx hp)]
  -- the walk stopped above `y`, whose only lister it finds in its link
  have hstop : ¬Visits s'.under s.parent? [r.root] y := by
    intro hvisits
    cases hvisits with
    | start hmem =>
      rw [List.mem_singleton.1 hmem, h.root_eq] at hyx
      exact absurd (h.lt_size_of_entering hx hyx) (Nat.not_lt.2 (Nat.le_add_right _ _))
    | @down q _ hq hyq wrong =>
      rw [once'.lister_eq q (reached_of_visits hq) p hpr y hyq hy'] at wrong
      exact wrong hright
  exact ((h.parent?_eq_iff once' hyr hc').1 (linked' y hyr c hc')).resolve_left hstop

/-- A generation with right links is followed by one exactly if the subtree that enters is
settled. -/
theorem linked_iff (h : Edited s f root e above current s' r) (hs : s.Sound)
    (once : s.UniqueListers root) (linked : s.Linked root) :
    s'.Linked r.root ↔ ∀ x, e.entering? = some x → s.Settled x :=
  ⟨fun linked' _ hx => h.settled_of_linked hs (h.uniqueListers hs once linked) linked' hx,
    h.linked_of_settled hs once linked⟩

/-! ### Superseded nodes -/

theorem record_eq (h : Edited s f root e above current s' r) :
    f.record r = f.recordSpine (e.target :: above) s.size := by
  rw [Forward.record, h.copies_eq]
  rfl

theorem isSuperseded_record (h : Edited s f root e above current s' r) (hs : s.Sound)
    (x : NodeId) :
    (f.record r).isSuperseded x = false ↔
      f.isSuperseded x = false ∧ x ∉ e.target :: above := by
  rw [h.record_eq]
  exact Forward.isSuperseded_recordSpine f _ (h.linksUp.nodup hs) x

/-- Nothing in the new generation has been copied. -/
theorem isSuperseded_eq_false (h : Edited s f root e above current s' r) (hs : s.Sound)
    (once : s.UniqueListers root) (fresh : ∀ y, s.size ≤ y → f.isSuperseded y = false)
    (recent : ∀ y ∈ s.preorder root, f.isSuperseded y = false) (hx : x ∈ s'.preorder r.root) :
    (f.record r).isSuperseded x = false := by
  refine (h.isSuperseded_record hs x).2 ⟨?_, h.not_mem_spine hs once hx⟩
  cases h.newNode hs once hx with
  | copy hi => exact fresh _ (Nat.le_add_right _ _)
  | kept hkept => exact recent x (h.reached_of_kept hs hkept)
  | inside hx hy => exact (h.enters _ hx).current x hy

end Edited

end TreeEdit.Store
