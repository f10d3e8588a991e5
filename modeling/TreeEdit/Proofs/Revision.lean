import TreeEdit.Proofs.Entering

/-!
# What an edit does to the value of its target

`Edit.revise` is the effect of an edit on the value of its target and on nothing else. `Store.plan`
gives exactly this value, once the path is found, the edit fits the child list, and what comes in
from outside may enter the tree.
-/

namespace TreeEdit

/-! ### Child lists -/

section Lists

variable {ids : List NodeId} {old new c : NodeId}

theorem set_idxOf_self (ids : List NodeId) (old : NodeId) : ids.set (ids.idxOf old) old = ids := by
  induction ids with
  | nil => rfl
  | cons a ids ih =>
    by_cases h : a = old
    · subst h
      simp
    · simp [List.idxOf_cons_ne ids h, ih]

theorem mem_set_idxOf (hids : ids.Nodup) (h : c ∈ ids.set (ids.idxOf old) new) :
    c = new ∨ (c ∈ ids ∧ c ≠ old) := by
  induction ids with
  | nil => simp at h
  | cons a ids ih =>
    obtain ⟨ha, hids⟩ := List.nodup_cons.1 hids
    by_cases hold : a = old
    · subst hold
      simp only [List.idxOf_cons_self, List.set_cons_zero, List.mem_cons] at h
      rcases h with rfl | h
      · exact Or.inl rfl
      · exact Or.inr ⟨List.mem_cons_of_mem _ h, fun heq => ha (heq ▸ h)⟩
    · simp only [List.idxOf_cons_ne ids hold, List.set_cons_succ, List.mem_cons] at h
      rcases h with rfl | h
      · exact Or.inr ⟨List.mem_cons_self, hold⟩
      · exact (ih hids h).imp_right fun h => ⟨List.mem_cons_of_mem _ h.1, h.2⟩

end Lists

theorem Node.position?_eq_some_iff {n : Node} {c : NodeId} {i : Nat} :
    n.position? c = some i ↔ c ∈ n.children ∧ n.children.idxOf c = i := by
  rw [position?]
  by_cases h : c ∈ n.children
  · obtain ⟨k, hk⟩ := Option.isSome_iff_exists.1 (List.isSome_idxOf?.2 h)
    rw [List.idxOf_eq_getD_idxOf?, hk]
    simp [h]
  · simp [List.idxOf?_eq_none_iff.2 h, h]

namespace Edit

/-- The value of the target after an edit. -/
def revise (n : Node) : Edit → Node
  | replace _ old new => n.setChild (n.children.idxOf old) new
  | insert _ index new => n.insertChild index new
  | remove _ child => n.eraseChild (n.children.idxOf child)
  | setWhitespace _ whitespace => n.withWhitespace whitespace
  | setComments _ leading trailing => n.withComments leading trailing

/-- Whether the child list of the target has the child or the place that an edit names. -/
def Fits (n : Node) : Edit → Prop
  | replace _ old _ => old ∈ n.children
  | insert _ index _ => index ≤ n.children.length
  | remove _ child => child ∈ n.children
  | setWhitespace .. => True
  | setComments .. => True

/-- The child that an edit brings in from outside the tree. -/
def entering? : Edit → Option NodeId
  | replace _ old new => if new = old then none else some new
  | insert _ _ new => some new
  | _ => none

/-- The children of the revised value: those that were there less the one that leaves, and the one
that enters. -/
theorem mem_children_revise {e : Edit} {n : Node} {c : NodeId} (hn : n.children.Nodup)
    (h : c ∈ (e.revise n).children) :
    e.entering? = some c ∨ (c ∈ n.children ∧ e.detached? ≠ some c) := by
  cases e with
  | replace parent old new =>
    simp only [revise, Node.setChild] at h
    by_cases hnew : new = old
    · subst hnew
      rw [set_idxOf_self] at h
      exact Or.inr ⟨h, by simp [detached?]⟩
    · rcases mem_set_idxOf hn h with rfl | ⟨hc, hne⟩
      · exact Or.inl (by simp [entering?, hnew])
      · exact Or.inr ⟨hc, by simp [detached?, Ne.symm hnew, Ne.symm hne]⟩
  | insert parent index new =>
    rcases List.eq_or_mem_of_mem_insertIdx h with rfl | hc
    · exact Or.inl rfl
    · exact Or.inr ⟨hc, by simp [detached?]⟩
  | remove parent child =>
    simp only [revise, Node.eraseChild, List.eraseIdx_idxOf_eq_erase, hn.mem_erase_iff] at h
    exact Or.inr ⟨h.2, by simpa [detached?] using Ne.symm h.1⟩
  | setWhitespace node whitespace => exact Or.inr ⟨h, by simp [detached?]⟩
  | setComments node leading trailing => exact Or.inr ⟨h, by simp [detached?]⟩

/-- A child of the revised value was there before or comes in. -/
theorem entering_or_mem_children {e : Edit} {n : Node} {c : NodeId}
    (h : c ∈ (e.revise n).children) : e.entering? = some c ∨ c ∈ n.children := by
  cases e with
  | replace parent old new =>
    by_cases hsame : new = old
    · rw [revise, Node.setChild, hsame, set_idxOf_self] at h
      exact Or.inr h
    · rcases List.mem_or_eq_of_mem_set h with h | rfl
      · exact Or.inr h
      · exact Or.inl (by simp [entering?, hsame])
  | insert parent index new =>
    rcases List.eq_or_mem_of_mem_insertIdx h with rfl | h
    · exact Or.inl rfl
    · exact Or.inr h
  | remove parent child => exact Or.inr (List.mem_of_mem_eraseIdx h)
  | setWhitespace node whitespace => exact Or.inr h
  | setComments node leading trailing => exact Or.inr h

theorem stableId_revise (e : Edit) (n : Node) : (e.revise n).stableId = n.stableId := by
  cases e <;> rfl

end Edit

namespace Store

variable {s : Store} {f : Forward} {root : NodeId} {e : Edit} {current value : Node}

theorem position_eq_ok_iff {c : NodeId} {i : Nat} :
    s.position current c = .ok i ↔ c ∈ current.children ∧ current.children.idxOf c = i := by
  rw [← Node.position?_eq_some_iff, position]
  cases current.position? c <;> simp

theorem siblingIndex_eq_ok_iff {parent sibling : NodeId} {offset i : Nat} :
    s.siblingIndex parent sibling offset = .ok i ↔
      ∃ n, s.get? parent = some n ∧ sibling ∈ n.children ∧
        n.children.idxOf sibling + offset = i := by
  simp only [siblingIndex, Verdict.bind_eq_ok_iff, node_eq_ok_iff, position_eq_ok_iff, pure,
    Except.pure, Except.ok.injEq]
  constructor
  · rintro ⟨n, hn, k, ⟨hmem, rfl⟩, rfl⟩
    exact ⟨n, hn, hmem, rfl⟩
  · rintro ⟨n, hn, hmem, rfl⟩
    exact ⟨n, hn, _, ⟨hmem, rfl⟩, rfl⟩

/-- The new value of a target, and when there is one. -/
theorem replacement_eq_ok_iff :
    s.replacement f root current e = .ok value ↔
      e.Fits current ∧ (∀ x, e.entering? = some x → s.MayEnter f root e.detached? x) ∧
        value = e.revise current := by
  cases e with
  | replace parent old new =>
    by_cases hnew : new = old
    · subst hnew
      simp only [replacement, Verdict.bind_eq_ok_iff, position_eq_ok_iff, ne_eq, not_true,
        if_false, pure, Except.pure, Except.ok.injEq, Edit.Fits, Edit.entering?, Edit.revise,
        if_true, reduceCtorEq, false_implies, implies_true, true_and]
      constructor
      · rintro ⟨k, ⟨hmem, rfl⟩, rfl⟩
        exact ⟨hmem, rfl⟩
      · rintro ⟨hmem, rfl⟩
        exact ⟨_, ⟨hmem, rfl⟩, rfl⟩
    · simp only [replacement, Verdict.bind_eq_ok_iff, position_eq_ok_iff, ne_eq, hnew,
        not_false_eq_true, if_true, pure, Except.pure, Except.ok.injEq, Edit.Fits, Edit.entering?,
        Edit.revise, Edit.detached?, Ne.symm hnew, if_false, Option.some.injEq, forall_eq']
      constructor
      · rintro ⟨k, ⟨hmem, rfl⟩, u, henter, rfl⟩
        exact ⟨hmem, checkDetached_eq_ok_iff.1 henter, rfl⟩
      · rintro ⟨hmem, henter, rfl⟩
        exact ⟨_, ⟨hmem, rfl⟩, (), checkDetached_eq_ok_iff.2 henter, rfl⟩
  | insert parent index new =>
    by_cases hindex : index > current.children.length
    · simp [replacement, hindex, bind, Except.bind, throw, throwThe, MonadExceptOf.throw, Edit.Fits,
        Nat.not_le.2 hindex]
    · simp only [replacement, Verdict.bind_eq_ok_iff, hindex, if_false, pure, Except.pure,
        Except.ok.injEq, Edit.Fits, Edit.entering?, Edit.revise, Edit.detached?,
        Nat.not_lt.1 hindex, Option.some.injEq, forall_eq', true_and]
      constructor
      · rintro ⟨u, henter, rfl⟩
        exact ⟨checkDetached_eq_ok_iff.1 henter, rfl⟩
      · rintro ⟨henter, rfl⟩
        exact ⟨(), checkDetached_eq_ok_iff.2 henter, rfl⟩
  | remove parent child =>
    simp only [replacement, Verdict.bind_eq_ok_iff, position_eq_ok_iff, pure, Except.pure,
      Except.ok.injEq, Edit.Fits, Edit.entering?, Edit.revise, reduceCtorEq, false_implies,
      implies_true, true_and]
    constructor
    · rintro ⟨k, ⟨hmem, rfl⟩, rfl⟩
      exact ⟨hmem, rfl⟩
    · rintro ⟨hmem, rfl⟩
      exact ⟨_, ⟨hmem, rfl⟩, rfl⟩
  | setWhitespace node whitespace =>
    simp [replacement, Edit.Fits, Edit.entering?, Edit.revise, eq_comm]
  | setComments node leading trailing =>
    simp [replacement, Edit.Fits, Edit.entering?, Edit.revise, eq_comm]

/-- When an edit is accepted, and what its plan is. -/
theorem plan_eq_ok_iff {most : Nat} {way : Path} :
    s.plan f most root e = .ok (way, value) ↔
      s.path most root e.target = .ok way ∧ ∃ current, s.get? e.target = some current ∧
        e.Fits current ∧ (∀ x, e.entering? = some x → s.MayEnter f root e.detached? x) ∧
          value = e.revise current ∧ value.validate = .ok () := by
  simp only [plan, Verdict.bind_eq_ok_iff, node_eq_ok_iff, replacement_eq_ok_iff, pure, Except.pure,
    Except.ok.injEq, Prod.mk.injEq]
  constructor
  · rintro ⟨found, hpath, current, hget, revised, ⟨hfits, henter, hrevised⟩, u, hvalid, rfl, rfl⟩
    exact ⟨hpath, current, hget, hfits, henter, hrevised, hvalid⟩
  · rintro ⟨hpath, current, hget, hfits, henter, hvalue, hvalid⟩
    exact ⟨way, hpath, current, hget, value, ⟨hfits, henter, hvalue⟩, (), hvalid, rfl, rfl⟩

end Store

end TreeEdit
