import TreeEdit.Proofs.Planning
import TreeEdit.Proofs.Validity

/-!
# Which edits are accepted

`Store.plan` looks for the path, asks the child list, walks through what comes in from outside and
validates the new value. In a store that can come about the old value was valid, so all that is left
of the last step is the number of children: the hints of a value and the nodes above the target are
no reason to refuse an edit. `Edit.Admitted` is the condition kind by kind, and
`Store.exists_plan_iff_admitted` says that it is exact.
-/

namespace TreeEdit

/-! ### Validity of the new value -/

theorem Node.validate_eq_ok_iff {n : Node} :
    n.validate = .ok () ↔
      n.attributes.kind.shape.accepts n.children.length = true ∧
        n.attributes.hints.validate = .ok () := by
  unfold validate
  by_cases h : n.attributes.kind.shape.accepts n.children.length = true <;> simp [h]

namespace Edit

variable {e : Edit} {n : Node}

/-- The number of children after an edit. -/
def lengthAfter (n : Node) : Edit → Nat
  | insert .. => n.children.length + 1
  | remove .. => n.children.length - 1
  | _ => n.children.length

theorem length_children_revise (h : e.Fits n) :
    (e.revise n).children.length = e.lengthAfter n := by
  cases e with
  | replace parent old new => exact List.length_set
  | insert parent index new => exact List.length_insertIdx_of_le_length h new
  | remove parent child => exact List.length_eraseIdx_of_lt (List.idxOf_lt_length_iff.2 h)
  | setWhitespace node whitespace => rfl
  | setComments node leading trailing => rfl

theorem kind_revise (e : Edit) (n : Node) :
    (e.revise n).attributes.kind = n.attributes.kind := by
  cases e <;> rfl

theorem hints_revise (e : Edit) (n : Node) :
    (e.revise n).attributes.hints = n.attributes.hints := by
  cases e <;> rfl

/-- An edit of a valid value only has to leave it enough children, and not too many. -/
theorem validate_revise_iff (hn : n.validate = .ok ()) (h : e.Fits n) :
    (e.revise n).validate = .ok () ↔
      n.attributes.kind.shape.accepts (e.lengthAfter n) = true := by
  rw [Node.validate_eq_ok_iff, kind_revise, hints_revise, length_children_revise h]
  exact and_iff_left (Node.validate_eq_ok_iff.1 hn).2

end Edit

/-! ### Entering the tree -/

namespace Store

variable {s : Store} {f : Forward} {root x : NodeId} {leaving : Option NodeId}

/-- A slot exists, no slot is reached twice from it, and each slot that is reached is of the current
generation and has no chain of links that ends at the root and avoids the slot that leaves. -/
structure CanEnter (s : Store) (f : Forward) (root : NodeId) (leaving : Option NodeId)
    (x : NodeId) : Prop where
  full : ∃ n, s.get? x = some n
  once : (s.preorder x).Nodup
  current : ∀ y ∈ s.preorder x, f.isSuperseded y = false
  apart : ∀ y ∈ s.preorder x, ∀ above, s.LinksUp y above →
    ¬(chainTop y above = root ∧ ∀ z ∈ y :: above, leaving ≠ some z)

theorem isAttached_eq_false_iff (hs : s.Sound) (hx : x < s.size) :
    s.isAttached root leaving x = false ↔ ∀ above, s.LinksUp x above →
      ¬(chainTop x above = root ∧ ∀ z ∈ x :: above, leaving ≠ some z) := by
  rw [← Bool.not_eq_true, isAttached_iff hs]
  constructor
  · intro h above hup hhangs
    exact h ⟨hx, hup.hangs_iff.2 hhangs⟩
  · rintro h ⟨-, hhangs⟩
    have hup := linksUp_chain hs (Nat.le_add_right s.size x)
    exact h _ hup (hup.hangs_iff.1 hhangs)

theorem mayEnter_iff_canEnter (hs : s.Sound) :
    s.MayEnter f root leaving x ↔ s.CanEnter f root leaving x := by
  constructor
  · intro h
    exact ⟨h.full x (mem_preorder_self s x), h.once, h.current, fun y hy =>
      (isAttached_eq_false_iff hs (h.lt_size hy)).1 (h.apart y hy)⟩
  · intro h
    have hlt : ∀ y ∈ s.preorder x, y < s.size := by
      obtain ⟨n, hn⟩ := h.full
      intro y hy
      exact Nat.lt_of_le_of_lt (le_of_mem_preorder hy) (lt_size_of_get? hn)
    exact ⟨h.once, fun y hy => hs.full y (hlt y hy), h.current, fun y hy =>
      (isAttached_eq_false_iff hs (hlt y hy)).2 (h.apart y hy)⟩

end Store

/-! ### Acceptance -/

/-- What an edit asks of a store, given the value of its target. -/
def Edit.Admitted (s : Store) (f : Forward) (root : NodeId) (n : Node) : Edit → Prop
  | .replace _ old new =>
    old ∈ n.children ∧ (new = old ∨ s.CanEnter f root (some old) new)
  | .insert _ index new =>
    index ≤ n.children.length ∧ s.CanEnter f root none new ∧
      n.attributes.kind.shape.accepts (n.children.length + 1) = true
  | .remove _ child =>
    child ∈ n.children ∧ n.attributes.kind.shape.accepts (n.children.length - 1) = true
  | .setWhitespace .. => True
  | .setComments .. => True

namespace Store

variable {s : Store} {f : Forward} {root : NodeId} {most : Nat} {e : Edit} {current : Node}

theorem admitted_iff (hs : s.Sound) (hcurrent : current.validate = .ok ()) :
    e.Admitted s f root current ↔
      e.Fits current ∧ (∀ x, e.entering? = some x → s.MayEnter f root e.detached? x) ∧
        current.attributes.kind.shape.accepts (e.lengthAfter current) = true := by
  have haccepts := (Node.validate_eq_ok_iff.1 hcurrent).1
  cases e with
  | replace parent old new =>
    -- a child that takes its own place does not come in from outside
    by_cases hsame : new = old
    · simp [Edit.Admitted, Edit.Fits, Edit.entering?, Edit.lengthAfter, hsame, haccepts]
    · simp [Edit.Admitted, Edit.Fits, Edit.entering?, Edit.lengthAfter, Edit.detached?, hsame,
        Ne.symm hsame, haccepts, mayEnter_iff_canEnter hs]
  | insert parent index new =>
    simp [Edit.Admitted, Edit.Fits, Edit.entering?, Edit.lengthAfter, Edit.detached?,
      mayEnter_iff_canEnter hs]
  | remove parent child =>
    simp [Edit.Admitted, Edit.Fits, Edit.entering?, Edit.lengthAfter]
  | setWhitespace node whitespace =>
    simp [Edit.Admitted, Edit.Fits, Edit.entering?, Edit.lengthAfter, haccepts]
  | setComments node leading trailing =>
    simp [Edit.Admitted, Edit.Fits, Edit.entering?, Edit.lengthAfter, haccepts]

theorem exists_plan_iff (hs : s.Sound) (hvalid : s.Valid) :
    (∃ out, s.plan f most root e = .ok out) ↔
      (∃ way, s.path most root e.target = .ok way) ∧
        ∃ current, s.get? e.target = some current ∧ e.Admitted s f root current := by
  constructor
  · rintro ⟨⟨way, value⟩, hplan⟩
    obtain ⟨hpath, current, hget, hfits, henters, rfl, hrevised⟩ := plan_eq_ok_iff.1 hplan
    have hcurrent := hvalid _ _ hget
    refine ⟨⟨way, hpath⟩, current, hget, (admitted_iff hs hcurrent).2 ⟨hfits, henters, ?_⟩⟩
    exact (Edit.validate_revise_iff hcurrent hfits).1 hrevised
  · rintro ⟨⟨way, hpath⟩, current, hget, hadmitted⟩
    have hcurrent := hvalid _ _ hget
    obtain ⟨hfits, henters, haccepts⟩ := (admitted_iff hs hcurrent).1 hadmitted
    exact ⟨(way, e.revise current), plan_eq_ok_iff.2 ⟨hpath, current, hget, hfits, henters, rfl,
      (Edit.validate_revise_iff hcurrent hfits).2 haccepts⟩⟩

theorem Arises.sound_and_valid (h : Arises s) : s.Sound ∧ s.Valid := by
  cases h with
  | building nodes => exact ⟨sound_build nodes, .build nodes⟩
  | tree h => exact ⟨h.sound.store, h.valid⟩
  | recording h runs =>
    exact ⟨(Overlay.Sound.of_runs h.sound runs).shadow,
      (Overlay.valid_of_runs h.valid runs).shadow⟩

/-- In every store that can come about, below whatever root and with whatever generations, an edit
is planned exactly if the path to its target is found and the target admits it. It is then carried
out unless there is no room or a child would be listed twice. -/
theorem exists_plan_iff_admitted {s : Store} (h : Arises s) (f : Forward) (most : Nat)
    (root : NodeId) (e : Edit) :
    ((∃ out, s.plan f most root e = .ok out) ↔
      (∃ way, s.path most root e.target = .ok way) ∧
        ∃ current, s.get? e.target = some current ∧ e.Admitted s f root current) ∧
    ∀ way value, s.plan f most root e = .ok (way, value) →
      ((∃ s' r, s.rebuild way value = (s', .ok r)) ↔
        value.children.Nodup ∧ s.checkRoom way.length = .ok ()) := by
  obtain ⟨hs, hvalid⟩ := h.sound_and_valid
  exact ⟨exists_plan_iff hs hvalid, fun way value hplan => exists_rebuild_iff hs hplan⟩

/-- Slot 1 stands below slot 2. It may take its place, but it may not come in beside it. -/
theorem exists_plan_iff_admitted_adopting :
    Arises Context.strayTree.store ∧
      (∃ out, Context.strayTree.store.plan .empty 9 4 (.replace 4 2 1) = .ok out) ∧
      ¬∃ out, Context.strayTree.store.plan .empty 9 4 (.insert 4 0 1) = .ok out := by
  have harises : Arises Context.strayTree.store := .tree (.built Context.finish_strayNodes)
  have hone : Context.strayTree.store.LinksUp 1 [2, 4] := by decide +kernel
  have hzero : Context.strayTree.store.LinksUp 0 [1, 2, 4] := by decide +kernel
  refine ⟨harises, (exists_plan_iff_admitted harises _ _ _ _).1.2 ⟨?_, ?_⟩, fun hplan => ?_⟩
  · exact Verdict.exists_eq_ok (by decide +kernel)
  · obtain ⟨n, hn, hmem⟩ : ∃ n, Context.strayTree.store.get? 4 = some n ∧ 2 ∈ n.children :=
      ⟨Context.blockAt 1 [2, 3], by decide +kernel, by decide⟩
    refine ⟨n, hn, hmem, Or.inr ⟨?_, by decide +kernel, by decide +kernel, ?_⟩⟩
    · exact Option.isSome_iff_exists.1 (by decide +kernel)
    · intro y hy above hup hhangs
      have hreached : y ∈ [1, 0] := by
        rwa [show Context.strayTree.store.preorder 1 = [1, 0] by decide +kernel] at hy
      rcases List.mem_pair.1 hreached with rfl | rfl
      · obtain rfl := hone.unique hup
        exact hhangs.2 2 (by decide) rfl
      · obtain rfl := hzero.unique hup
        exact hhangs.2 2 (by decide) rfl
  · obtain ⟨n, hn, -, henter, -⟩ := ((exists_plan_iff_admitted harises _ _ _ _).1.1 hplan).2
    exact henter.apart 1 (by decide +kernel) _ hone ⟨by decide +kernel, by simp⟩

end Store

end TreeEdit
