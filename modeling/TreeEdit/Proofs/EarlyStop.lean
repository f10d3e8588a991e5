import TreeEdit.Proofs.Fidelity
import TreeEdit.Proofs.Planning
import TreeEdit.Proofs.Steady

/-!
# Where the walk through the links may stop

The walk that sets the links of a new generation does not go past a child whose link is right. What
it leaves out has been right before, or it stays wrong. `Tree.FollowedBy` says what this comes to
from one generation that is a tree to the next: the next one is a tree exactly if the subtree that
an edit puts in has no right link above a wrong one. Edits that put nothing in cannot fail this, nor
can those that put in nodes without a link together with nodes of the child that they replace.
`followedBy_of_perform` says that every edit of an editor and of an overlay leads to such a
generation.
-/

namespace TreeEdit

/-! ### Edits -/

namespace Edit

variable {e : Edit} {n : Node} {c : NodeId}

theorem attached?_of_entering? (h : e.entering? = some c) : e.attached? = some c := by
  cases e with
  | replace parent old new =>
    simp only [entering?] at h
    split at h
    · cases h
    · exact h
  | insert parent index new => exact h
  | remove parent child => cases h
  | setWhitespace node whitespace => cases h
  | setComments node leading trailing => cases h

/-- A child that is put in comes from outside or takes its own place. -/
theorem entering_or_mem_of_attached? (hfits : e.Fits n) (h : e.attached? = some c) :
    e.entering? = some c ∨ c ∈ n.children := by
  cases e with
  | replace parent old new =>
    cases h
    by_cases hsame : c = old
    · exact Or.inr (hsame ▸ hfits)
    · exact Or.inl (by simp [entering?, hsame])
  | insert parent index new => exact Or.inl h
  | remove parent child => cases h
  | setWhitespace node whitespace => cases h
  | setComments node leading trailing => cases h

theorem mem_children_of_oldChild? (hfits : e.Fits n) (h : e.oldChild? = some c) :
    c ∈ n.children := by
  cases e with
  | replace parent old new => exact Option.some.inj h ▸ hfits
  | remove parent child => exact Option.some.inj h ▸ hfits
  | insert parent index new => cases h
  | setWhitespace node whitespace => cases h
  | setComments node leading trailing => cases h

end Edit

/-! ### Right links above wrong ones -/

namespace Store

variable {s s' : Store} {f : Forward} {root id x : NodeId} {e : Edit} {above : List NodeId}
  {current : Node} {r : Rebuilt}

theorem Linked.mono (h : s.Linked root) (hx : x ∈ s.preorder root) : s.Linked x := fun p hp =>
  h p (mem_preorder_trans hp hx)

/-- No right link stands above a wrong one: where the link of a child names its lister, so do all
links further down. -/
def RightDownwards (s : Store) (id : NodeId) : Prop :=
  ∀ p ∈ s.preorder id, ∀ x ∈ s.under p, s.parent? x = some p → s.Linked x

instance (s : Store) (id : NodeId) : Decidable (s.RightDownwards id) :=
  inferInstanceAs (Decidable
    (∀ p ∈ s.preorder id, ∀ x ∈ s.under p, s.parent? x = some p → s.Linked x))

/-- One step down is enough. -/
theorem settled_iff_rightDownwards : s.Settled id ↔ s.RightDownwards id := by
  constructor
  · intro settled p hp x hx right
    have hxid := mem_preorder_of_mem_under hp hx
    refine preorder_induction (P := fun q => ∀ c ∈ s.under q, s.parent? c = some q)
      (settled p hp x hx right) ?_
    intro q hq hright d hd
    exact settled q (mem_preorder_trans hq hxid) d hd (hright d hd)
  · intro h p hp x hx right
    exact h p hp x hx right x (mem_preorder_self s x)

namespace Edited

theorem mem_preorder_of_mem_children (h : Edited s f root e above current s' r) (hs : s.Sound)
    (hx : x ∈ current.children) : x ∈ s.preorder root := by
  rw [← h.under_target hs] at hx
  exact mem_preorder_of_mem_under (h.reached_of_mem_spine hs List.mem_cons_self) hx

/-- A child that takes its own place has been in the tree, where no link is wrong. -/
theorem rightDownwards_attached_iff (h : Edited s f root e above current s' r) (hs : s.Sound)
    (linked : s.Linked root) :
    (∀ x, e.attached? = some x → s.RightDownwards x) ↔
      ∀ x, e.entering? = some x → s.Settled x := by
  constructor
  · intro hall x hx
    exact settled_iff_rightDownwards.2 (hall x (Edit.attached?_of_entering? hx))
  · intro hall x hx
    rcases Edit.entering_or_mem_of_attached? h.fits hx with henter | hmem
    · exact settled_iff_rightDownwards.1 (hall x henter)
    · intro p hp y hy _
      have hxr := h.mem_preorder_of_mem_children hs hmem
      exact linked.mono (mem_preorder_trans (mem_preorder_of_mem_under hp hy) hxr)

/-- A right link in a subtree without links of its own is inside the child that is replaced. -/
theorem rightDownwards_of_adopted (h : Edited s f root e above current s' r) (hs : s.Sound)
    (linked : s.Linked root)
    (adopted : ∀ y ∈ s.preorder x, s.parent? y = none ∨
      ∃ old, e.oldChild? = some old ∧ y ∈ s.preorder old) : s.RightDownwards x := by
  intro p hp y hy right
  rcases adopted y (mem_preorder_of_mem_under hp hy) with hnone | ⟨old, hold, hyold⟩
  · rw [hnone] at right
    cases right
  · have hmem := Edit.mem_children_of_oldChild? h.fits hold
    exact linked.mono (mem_preorder_trans hyold (h.mem_preorder_of_mem_children hs hmem))

end Edited

end Store

/-! ### From one generation to the next -/

theorem Tree.isTree_iff {t : Tree} :
    t.IsTree ↔ (t.store.preorder t.root).Nodup ∧ t.store.parent? t.root = none ∧
      t.store.Linked t.root :=
  ⟨fun h => ⟨h.once, h.root_free, h.linked⟩, fun h => ⟨h.1, h.2.1, h.2.2⟩⟩

instance (t : Tree) : Decidable t.IsTree :=
  decidable_of_iff _ Tree.isTree_iff.symm

/-- What an edit makes of a generation that is a tree. -/
structure Tree.FollowedBy (t : Tree) (e : Edit) (t' : Tree) : Prop where
  isTree_iff : t'.IsTree ↔ ∀ x, e.attached? = some x → t.store.RightDownwards x
  isTree_of_operation :
    e.operation = .remove ∨ e.operation = .setWhitespace ∨ e.operation = .setComments → t'.IsTree
  isTree_of_adopted :
    (∀ x, e.attached? = some x → ∀ y ∈ t.store.preorder x, t.store.parent? y = none ∨
      ∃ old, e.oldChild? = some old ∧ y ∈ t.store.preorder old) → t'.IsTree

theorem Store.Edited.followedBy {s s' : Store} {f : Forward} {root : NodeId} {e : Edit}
    {above : List NodeId} {current : Node} {r : Rebuilt}
    (h : Edited s f root e above current s' r) (hs : s.Sound)
    (tree : Tree.IsTree { store := s, root }) :
    Tree.FollowedBy { store := s, root } e { store := s', root := r.root } := by
  obtain ⟨once, -, linked⟩ := tree
  dsimp only at once linked
  have unique := uniqueListers_of_nodup once
  have hiff : Tree.IsTree { store := s', root := r.root } ↔
      ∀ x, e.attached? = some x → s.RightDownwards x := by
    rw [h.rightDownwards_attached_iff hs linked, ← h.linked_iff hs unique linked]
    -- the rest of being a tree is never lost
    exact ⟨fun tree' => tree'.linked, fun linked' =>
      ⟨(h.uniqueListers hs unique linked).nodup_preorder, h.parent?_root hs, linked'⟩⟩
  refine ⟨hiff, fun hop => hiff.2 fun x hx => ?_, fun adopted => hiff.2 fun x hx => ?_⟩
  · cases e with
    | replace parent old new => simp [Edit.operation] at hop
    | insert parent index new => simp [Edit.operation] at hop
    | remove parent child => cases hx
    | setWhitespace node whitespace => cases hx
    | setComments node leading trailing => cases hx
  · exact h.rightDownwards_of_adopted hs linked (adopted x hx)

/-! ### Editors and overlays -/

theorem Context.followedBy_perform {c : Context} {call : Call} {e : Edit} (hs : c.Sound)
    (tree : c.tree.IsTree) (asked : call.edit? c.store = some e)
    (done : (c.perform call).2 = .ok none) : c.tree.FollowedBy e (c.perform call).1.tree := by
  have hstep := step_perform c call
  generalize c.perform call = out at done hstep ⊢
  obtain ⟨c', answer⟩ := out
  dsimp only at done hstep ⊢
  subst done
  cases hstep with
  | edited asked' found done root forward limits =>
    obtain rfl := Option.some.inj (asked.symm.trans asked')
    rw [Context.tree, Context.tree, root]
    exact done.followedBy hs.store tree

/-- What an edit that an overlay has carried out did to the shadow. -/
theorem Overlay.edited_of_perform {o : Overlay} {g : SharedGuard} {call : OverlayCall} {e : Edit}
    (asked : call.edit? o = some e) (done : (o.perform g call).2.2 = .ok none) :
    ∃ above current shadow r,
      Store.Edited o.shadow o.forward o.root (e.mapIds o.forward.resolve) above current shadow r ∧
        (o.perform g call).1.shadow = shadow ∧ (o.perform g call).1.root = r.root := by
  rw [perform_of_edit? asked] at done ⊢
  rcases o.record_cases g e with ⟨guard, err, -, -, hanswer⟩ |
    ⟨node, way, value, shadow, r, guard, -, -, hplanned, -, -, hrebuild, hnext, -⟩
  · simp [unitAnswer, hanswer, Except.map] at done
  · obtain ⟨above, current, -, hedited⟩ := edited_of_plan hplanned hrebuild
    refine ⟨above, current, shadow, r, hedited, ?_, ?_⟩
    · exact congrArg Overlay.shadow hnext
    · exact congrArg Overlay.root hnext

theorem Overlay.followedBy_perform {v : View} {o : Overlay} {g : SharedGuard} {call : OverlayCall}
    {e : Edit} (hs : o.Sound v) (tree : o.tree.IsTree) (asked : call.edit? o = some e)
    (done : (o.perform g call).2.2 = .ok none) :
    o.tree.FollowedBy (e.mapIds o.forward.resolve) (o.perform g call).1.tree := by
  obtain ⟨above, current, shadow, r, hedited, hshadow, hroot⟩ := edited_of_perform asked done
  rw [Overlay.tree, Overlay.tree, hshadow, hroot]
  exact hedited.followedBy hs.shadow tree

/-- A generation of an editor or of an overlay that is a tree is followed by a tree exactly if the
subtree that the edit puts in has no right link above a wrong one, all as the links are before the
edit. Edits that put nothing in lead to a tree, and so do those that put in nodes without a link and
nodes at or below the child that they replace. -/
theorem followedBy_of_perform :
    (∀ (t : Tree) (limits : Limits) (calls : List Call) (c : Context) (call : Call) (e : Edit),
      Lineage t → (Context.ofTree t limits).run calls = c → c.tree.IsTree →
      call.edit? c.store = some e → (c.perform call).2 = .ok none →
      c.tree.FollowedBy e (c.perform call).1.tree) ∧
    ∀ (v : View) (o : Overlay) (g : SharedGuard) (call : OverlayCall) (e : Edit),
      Lineage v.tree → v.Runs (fun _ => True) o → o.tree.IsTree →
      call.edit? o = some e → (o.perform g call).2.2 = .ok none →
      o.tree.FollowedBy (e.mapIds o.forward.resolve) (o.perform g call).1.tree := by
  constructor
  · rintro t limits calls c call e ht rfl tree asked done
    exact Context.followedBy_perform ((Context.Sound.ofTree ht.sound limits).run calls) tree asked
      done
  · intro v o g call e hv runs tree asked done
    exact Overlay.followedBy_perform (Overlay.Sound.of_runs hv.sound runs) tree asked done

/-- Slot 2 has been taken out, and slot 6 has adopted slot 0 from below it and left again. Putting
slot 2 back leaves a wrong link. -/
def Context.robbed : Context :=
  (ofTree strayTree .single).run (strayCalls.take 4)

/-- Slot 14 lists a node from below slot 2, and is about to take its place. -/
def Overlay.adopting : Overlay :=
  View.sample.overlayAfter 0 (View.wrapping.take 5)

theorem followedBy_of_perform_adopting :
    (Context.robbed.tree.IsTree ∧ ¬(Context.robbed.perform (.insert .before 8 2 3)).1.tree.IsTree ∧
      ¬Context.robbed.store.RightDownwards 2) ∧
    Overlay.adopting.tree.IsTree ∧
      (Overlay.adopting.perform View.sample.shared (.shared (.replace 4 2 14))).1.tree.IsTree := by
  have hv : Lineage Context.strayTree := .built Context.finish_strayNodes
  have hcontext : Context.robbed.tree.FollowedBy (.insert 8 0 2)
      (Context.robbed.perform (.insert .before 8 2 3)).1.tree :=
    followedBy_of_perform.1 Context.strayTree .single (Context.strayCalls.take 4) Context.robbed
      (.insert .before 8 2 3) (.insert 8 0 2) hv rfl (by decide +kernel) (by decide +kernel)
      (by decide +kernel)
  have hoverlay := followedBy_of_perform.2 View.sample Overlay.adopting View.sample.shared
    (.shared (.replace 4 2 14)) (.replace 4 2 14) hv (View.runs_overlayAfter fun _ _ => trivial)
    (by decide +kernel) rfl (by decide +kernel)
  have hwrong : ¬Context.robbed.store.RightDownwards 2 := by decide +kernel
  refine ⟨⟨by decide +kernel, fun h => hwrong (hcontext.isTree_iff.1 h 2 rfl), hwrong⟩,
    by decide +kernel, hoverlay.isTree_of_adopted ?_⟩
  intro x hx y hy
  have hall : ∀ y ∈ Overlay.adopting.shadow.preorder (Overlay.adopting.forward.resolve 14),
      Overlay.adopting.shadow.parent? y = none ∨
        y ∈ Overlay.adopting.shadow.preorder (Overlay.adopting.forward.resolve 2) := by
    decide +kernel
  obtain rfl := Option.some.inj hx
  exact (hall y hy).imp_right fun hold => ⟨_, rfl, hold⟩

end TreeEdit
