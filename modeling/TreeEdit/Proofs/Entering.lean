import TreeEdit.Edit.Plan
import TreeEdit.Proofs.Ascent

/-!
# Subtrees that may enter a tree

Before a subtree is put into a tree, a walk with a stack goes through it and stops at the first slot
that is missing, reached twice, copied since, or attached. `checkDetached_eq_ok_iff` says that the
walk comes to its end exactly if `MayEnter` holds.
-/

namespace TreeEdit.Store

variable {s : Store} {f : Forward} {root x : NodeId} {leaving : Option NodeId}

/-- What is reached from a slot exists, is reached once, is of the current generation, and is not
attached to the root, other than through a slot that leaves. -/
structure MayEnter (s : Store) (f : Forward) (root : NodeId) (leaving : Option NodeId)
    (x : NodeId) : Prop where
  once : (s.preorder x).Nodup
  full : ∀ y ∈ s.preorder x, ∃ n, s.get? y = some n
  current : ∀ y ∈ s.preorder x, f.isSuperseded y = false
  apart : ∀ y ∈ s.preorder x, s.isAttached root leaving y = false

theorem MayEnter.lt_size (h : s.MayEnter f root leaving x) {y : NodeId} (hy : y ∈ s.preorder x) :
    y < s.size := by
  obtain ⟨n, hn⟩ := h.full y hy
  exact lt_size_of_get? hn

theorem detachedWalk_eq_ok_iff (s : Store) (f : Forward) (root : NodeId) (leaving : Option NodeId)
    (seen : IdSet) (stack : List NodeId) :
    s.detachedWalk f root leaving seen stack = .ok () ↔
      (stack.flatMap s.preorder).Nodup ∧
        ∀ y ∈ stack.flatMap s.preorder, y ∉ seen ∧ (∃ n, s.get? y = some n) ∧
          f.isSuperseded y = false ∧ s.isAttached root leaving y = false := by
  induction seen, stack using detachedWalk.induct s f root leaving with
  | case1 seen => simp [detachedWalk]
  | case2 seen id rest hnone =>
    rw [detachedWalk, hnone, List.flatMap_cons, preorder_eq]
    simp [hnone]
  | case3 seen id rest n hn hseen =>
    rw [detachedWalk, hn, List.flatMap_cons, preorder_eq]
    simp [Std.ExtTreeSet.contains_iff_mem.1 hseen]
  | case4 seen id rest n hn hseen hsup =>
    rw [detachedWalk, hn, List.flatMap_cons, preorder_eq]
    simp [hseen, hsup]
  | case5 seen id rest n hn hseen hsup hatt =>
    rw [detachedWalk, hn, List.flatMap_cons, preorder_eq]
    simp [hseen, hsup, hatt]
  | case6 seen id rest n hn hseen hsup hatt ih =>
    rw [detachedWalk, hn]
    simp only [hseen, hsup, hatt, Bool.false_eq_true, if_false, ih]
    -- the stack holds the children in reverse, which neither membership nor repetition sees
    have hperm : (((s.under id).reverse ++ rest).flatMap s.preorder).Perm
        ((s.under id).flatMap s.preorder ++ rest.flatMap s.preorder) := by
      rw [← List.flatMap_append]
      exact ((List.reverse_perm _).append_right rest).flatMap_right s.preorder
    rw [hperm.nodup_iff, List.flatMap_cons, preorder_eq, List.cons_append, List.nodup_cons,
      List.forall_mem_cons]
    simp only [hperm.mem_iff, IdSet.mem_insert_iff, not_or, hn, hsup, hatt]
    have hid : id ∉ seen := by rwa [Std.ExtTreeSet.mem_iff_contains]
    constructor
    · rintro ⟨hnodup, hall⟩
      refine ⟨⟨fun hmem => (hall id hmem).1.1 rfl, hnodup⟩, by simpa using hid, ?_⟩
      intro y hy
      exact ⟨(hall y hy).1.2, (hall y hy).2⟩
    · rintro ⟨⟨hnotmem, hnodup⟩, -, hall⟩
      refine ⟨hnodup, fun y hy => ⟨⟨?_, (hall y hy).1⟩, (hall y hy).2⟩⟩
      rintro rfl
      exact hnotmem hy

theorem checkDetached_eq_ok_iff :
    s.checkDetached f root leaving x = .ok () ↔ s.MayEnter f root leaving x := by
  rw [checkDetached, detachedWalk_eq_ok_iff, List.flatMap_singleton]
  constructor
  · rintro ⟨hnodup, hall⟩
    exact ⟨hnodup, fun y hy => (hall y hy).2.1, fun y hy => (hall y hy).2.2.1,
      fun y hy => (hall y hy).2.2.2⟩
  · intro h
    exact ⟨h.once, fun y hy => ⟨by simp, h.full y hy, h.current y hy, h.apart y hy⟩⟩

end TreeEdit.Store
